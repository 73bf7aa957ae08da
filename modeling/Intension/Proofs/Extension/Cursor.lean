import Intension.Extension.Cursor

namespace Intension

/-- The tuples of a product of domains by the place of their first value, then by the place of their
    second value, and so on. -/
def product : List (List Word) → List (List Word)
  | [] => [[]]
  | domain :: domains => domain.flatMap fun v => (product domains).map (v :: ·)

def tupleCount (domains : List (List Word)) : Nat :=
  (domains.map List.length).foldr (· * ·) 1

theorem length_product (domains : List (List Word)) :
    (product domains).length = tupleCount domains := by
  induction domains with
  | nil => rfl
  | cons domain domains ih =>
    have count : tupleCount (domain :: domains) = domain.length * tupleCount domains := rfl
    simp only [product, List.length_flatMap, List.length_map, ih, List.map_const', List.sum_replicate_nat,
      count]

theorem product_eq_nil {domains : List (List Word)} (empty : domains.any List.isEmpty = true) :
    product domains = [] := by
  induction domains with
  | nil => cases empty
  | cons domain domains ih =>
    rw [List.any_cons, Bool.or_eq_true] at empty
    rcases empty with none | none
    · rw [List.isEmpty_iff.mp none]
      rfl
    · rw [product, ih none]
      simp

namespace Cursor

/-- The values of the tuple are those at its places. -/
inductive Reads : List (List Word) → List Nat → List Word → Prop
  | nil : Reads [] [] []
  | cons {domain : List Word} {place : Nat} {v : Word} {domains : List (List Word)} {places : List Nat}
      {tuple : List Word} (value : domain[place]? = some v) (others : Reads domains places tuple) :
      Reads (domain :: domains) (place :: places) (v :: tuple)

/-- The tuples of the product that come after the one at the given places. -/
def behind : List (List Word) → List Nat → List Word → List (List Word)
  | domain :: domains, place :: places, v :: tuple =>
    (behind domains places tuple).map (v :: ·) ++
      (domain.drop (place + 1)).flatMap fun w => (product domains).map (w :: ·)
  | _, _, _ => []

/-- What a turn owes to the tuples that come after the current one: it leads to the first of them, or
    there are none and it leads back to the first tuple of the product. -/
def Turned (domains : List (List Word)) (places : List Nat) (tuple : List Word) :
    Bool × List Nat × List Word → Prop
  | (true, others, next) =>
    Reads domains others next ∧ behind domains places tuple = next :: behind domains others next
  | (false, others, next) =>
    Reads domains others next ∧ behind domains places tuple = [] ∧
      product domains = next :: behind domains others next

theorem turned {domains : List (List Word)} {places : List Nat} {tuple : List Word}
    (reads : Reads domains places tuple) :
    Turned domains places tuple (turn domains places tuple) := by
  induction reads with
  | nil => exact ⟨.nil, rfl, rfl⟩
  | @cons domain place v domains places tuple value others ih =>
    obtain ⟨bound, _⟩ := List.getElem?_eq_some_iff.mp value
    rw [turn]
    generalize turn domains places tuple = turn at ih
    rcases turn with ⟨_ | _, others, next⟩
    · -- The positions behind are back at their first tuple, so this one turns.
      obtain ⟨reads, none, whole⟩ := ih
      dsimp only
      split
      · rename_i w found
        have drop : domain.drop (place + 1) = w :: domain.drop (place + 2) := by
          obtain ⟨bound, rfl⟩ := List.getElem?_eq_some_iff.mp found
          exact List.drop_eq_getElem_cons bound
        refine ⟨.cons found reads, ?_⟩
        simp only [behind, none, drop, whole, List.flatMap_cons, List.map_nil, List.map_cons,
          List.nil_append, List.cons_append]
      · rename_i ends
        have drop : domain.drop (place + 1) = [] :=
          List.drop_eq_nil_of_le (List.getElem?_eq_none_iff.mp ends)
        obtain ⟨first, rest, rfl⟩ := List.exists_cons_of_length_pos (Nat.zero_lt_of_lt bound)
        refine ⟨.cons rfl reads, ?_⟩
        simp only [behind, none, drop, product, whole, List.headD_cons, List.flatMap_cons, List.flatMap_nil,
          List.map_nil, List.map_cons, List.append_nil, List.cons_append, List.drop_succ_cons,
          List.drop_zero, and_self]
    · obtain ⟨reads, following⟩ := ih
      refine ⟨.cons value reads, ?_⟩
      simp only [behind, following, List.map_cons, List.cons_append]

theorem reads_first {domains : List (List Word)} (nonempty : domains.any List.isEmpty = false) :
    Reads domains (domains.map fun _ => 0) (domains.filterMap List.head?) ∧
      product domains = domains.filterMap List.head? ::
        behind domains (domains.map fun _ => 0) (domains.filterMap List.head?) := by
  induction domains with
  | nil => exact ⟨.nil, rfl⟩
  | cons domain domains ih =>
    rw [List.any_cons, Bool.or_eq_false_iff] at nonempty
    obtain ⟨reads, whole⟩ := ih nonempty.2
    cases domain with
    | nil => simp at nonempty
    | cons v values =>
      refine ⟨.cons rfl reads, ?_⟩
      simp only [product, List.flatMap_cons, List.map_cons, List.filterMap_cons, List.head?_cons, behind,
        List.drop_succ_cons, List.drop_zero]
      rw [← List.cons_append, ← List.map_cons, ← whole]

/-- The tuples that a cursor has still to give. -/
def pending (c : Cursor) : List (List Word) :=
  if c.finished then []
  else if c.started then behind c.domains c.places c.tuple
  else product c.domains

/-- The states of a cursor on its way: before the first tuple, on a tuple that its places have, and
    behind the last one. -/
inductive Sound : Cursor → Prop
  | before {domains : List (List Word)} {tuple : List Word}
      (nonempty : domains.any List.isEmpty = false) :
      Sound ⟨domains, domains.map fun _ => 0, tuple, false, false⟩
  | within {domains : List (List Word)} {places : List Nat} {tuple : List Word}
      (reads : Reads domains places tuple) : Sound ⟨domains, places, tuple, true, false⟩
  | behind {domains : List (List Word)} {places : List Nat} {tuple : List Word} {started : Bool} :
      Sound ⟨domains, places, tuple, started, true⟩

theorem sound_start (domains : List (List Word)) : (start domains).Sound := by
  cases empty : domains.any List.isEmpty with
  | true =>
    rw [start, empty]
    exact .behind
  | false =>
    rw [start, empty]
    exact .before empty

theorem pending_start (domains : List (List Word)) : (start domains).pending = product domains := by
  cases empty : domains.any List.isEmpty with
  | true =>
    rw [product_eq_nil empty, start, empty]
    rfl
  | false =>
    rw [start, empty]
    rfl

/-- Each step of a cursor gives the first of its pending tuples, until there are none. -/
theorem next_cases {c : Cursor} (sound : c.Sound) :
    (c.pending = [] ∧ ∃ after, c.next = (none, after) ∧ after.finished = true) ∨
      ∃ tuple after, c.next = (some tuple, after) ∧ after.Sound ∧ c.pending = tuple :: after.pending := by
  cases sound with
  | before nonempty =>
    obtain ⟨reads, whole⟩ := reads_first nonempty
    exact .inr ⟨_, _, rfl, .within reads, whole⟩
  | @within domains places tuple reads =>
    have turned := turned reads
    simp only [next, Bool.false_eq_true, if_false, if_true]
    generalize turn domains places tuple = turn at turned
    rcases turn with ⟨_ | _, others, next⟩
    · exact .inl ⟨turned.2.1, _, rfl, rfl⟩
    · exact .inr ⟨_, _, rfl, .within turned.1, turned.2⟩
  | behind => exact .inl ⟨rfl, _, rfl, rfl⟩

end Cursor

end Intension
