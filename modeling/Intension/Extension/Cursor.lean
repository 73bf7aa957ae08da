import Intension.Word

namespace Intension

/-- A walk through the tuples of a product of domains in which the last position turns fastest. The
    tuple is kept from one turn to the next, which changes it only at the places it changes. -/
structure Cursor where
  domains : List (List Word)
  /-- The places, in their domains, of the values of the tuple. -/
  places : List Nat
  tuple : List Word
  started : Bool
  finished : Bool

namespace Cursor

/-- The product of no domains has one empty tuple, and a product with an empty domain has none. -/
def start (domains : List (List Word)) : Cursor :=
  ⟨domains, domains.map fun _ => 0, [], false, domains.any List.isEmpty⟩

/-- The places and values after a turn, with a carry from each domain that is at its end. A carry out
    of the first domain leaves no tuple to come. -/
def turn : List (List Word) → List Nat → List Word → Bool × List Nat × List Word
  | domain :: domains, place :: places, v :: tuple =>
    match turn domains places tuple with
    | (true, places, tuple) => (true, place :: places, v :: tuple)
    | (false, places, tuple) =>
      match domain[place + 1]? with
      | some w => (true, (place + 1) :: places, w :: tuple)
      | none => (false, 0 :: places, domain.headD v :: tuple)
  | _, _, _ => (false, [], [])

def next (c : Cursor) : Option (List Word) × Cursor :=
  if c.finished then (none, c)
  else if c.started then
    match turn c.domains c.places c.tuple with
    | (true, places, tuple) => (some tuple, { c with places, tuple })
    | (false, places, tuple) => (none, { c with places, tuple, finished := true })
  else
    let tuple := c.domains.filterMap List.head?
    (some tuple, { c with tuple, started := true })

/-- One more than the turns that any places leave. -/
def span : List (List Word) → Nat
  | [] => 1
  | domain :: domains => (domain.length + 1) * span domains

/-- A bound for the turns that the places leave. A place that turns gives up a whole span, which is more
    than the places behind it get back with the carry. -/
def turnsLeft : List (List Word) → List Nat → Nat
  | domain :: domains, place :: places => (domain.length - place) * span domains + turnsLeft domains places
  | _, _ => 0

theorem turnsLeft_lt_span (domains : List (List Word)) (places : List Nat) :
    turnsLeft domains places < span domains := by
  induction domains generalizing places with
  | nil => cases places <;> exact Nat.zero_lt_one
  | cons domain domains ih =>
    cases places with
    | nil => exact Nat.mul_pos (Nat.succ_pos _) (Nat.zero_lt_of_lt (ih []))
    | cons place places =>
      have bound : (domain.length - place) * span domains ≤ domain.length * span domains :=
        Nat.mul_le_mul_right _ (Nat.sub_le _ _)
      have behind := ih places
      rw [turnsLeft, span, Nat.succ_mul]
      omega

theorem turnsLeft_turn {domains : List (List Word)} {places others : List Nat} {tuple next : List Word}
    (turned : turn domains places tuple = (true, others, next)) :
    turnsLeft domains others < turnsLeft domains places := by
  induction domains generalizing places others tuple next with
  | nil => cases turned
  | cons domain domains ih =>
    match places, tuple with
    | [], _ => cases turned
    | _ :: _, [] => cases turned
    | place :: places, v :: tuple =>
      rw [turn] at turned
      split at turned
      · rename_i others _ behind
        cases turned
        exact Nat.add_lt_add_left (ih behind) _
      · rename_i others _ _
        split at turned
        · rename_i w found
          cases turned
          have bound := (List.getElem?_eq_some_iff.mp found).1
          have behind := turnsLeft_lt_span domains others
          have steps : domain.length - place = domain.length - (place + 1) + 1 := by omega
          rw [turnsLeft, turnsLeft, steps, Nat.succ_mul]
          omega
        · cases turned

/-- A bound for the tuples that a cursor has still to give. -/
def remaining (c : Cursor) : Nat :=
  turnsLeft c.domains c.places + if c.started then 0 else 1

theorem remaining_next {c after : Cursor} {tuple : List Word} (step : c.next = (some tuple, after)) :
    after.remaining < c.remaining := by
  unfold next at step
  split at step
  · cases step
  · split at step
    · split at step
      · rename_i turned
        cases step
        exact Nat.add_lt_add_right (turnsLeft_turn turned) _
      · cases step
    · rename_i first
      cases step
      rw [remaining, remaining, if_pos rfl, if_neg first]
      exact Nat.lt_succ_self _

end Cursor

end Intension
