import Intension.Extension.Split
import Intension.Proofs.Extension.Side

namespace Intension

namespace Program

/-- What is relied on when parts are worked out side by side: the results come in the order of the
    parts, and if parts fail then the error of one of them is reported. -/
structure Gathers (gather : Gathering) : Prop where
  results : ∀ results : List (List Tuple), gather (results.map .ok) = .ok results
  failure : ∀ parts, (∃ e, .error e ∈ parts) → ∃ e, .error e ∈ parts ∧ gather parts = .error e

theorem gathers_leftmost : Gathers leftmost := by
  constructor
  · intro results
    induction results with
    | nil => rfl
    | cons tuples results ih =>
      rw [List.map_cons, leftmost, ok_bind, ih]
      rfl
  · intro parts fails
    induction parts with
    | nil => simp at fails
    | cons part parts ih =>
      cases part with
      | error e => exact ⟨e, List.mem_cons_self, rfl⟩
      | ok tuples =>
        obtain ⟨e, member, reported⟩ := ih (by simpa using fails)
        refine ⟨e, List.mem_cons_of_mem _ member, ?_⟩
        rw [leftmost, ok_bind, reported]
        rfl

/-- The results of all parts, or some part that fails. -/
theorem parts_cases (parts : List (Except ExtensionError (List Tuple))) :
    (∃ results : List (List Tuple), parts = results.map .ok) ∨ ∃ e, .error e ∈ parts := by
  induction parts with
  | nil => exact .inl ⟨[], rfl⟩
  | cons part parts ih =>
    cases part with
    | error e => exact .inr ⟨e, List.mem_cons_self⟩
    | ok tuples =>
      rcases ih with ⟨results, rfl⟩ | ⟨e, member⟩
      · exact .inl ⟨tuples :: results, rfl⟩
      · exact .inr ⟨e, List.mem_cons_of_mem _ member⟩

/-- The products with one value each in the first position. A product of no domains is not split. -/
def pieces : List (List Word) → List (List (List Word))
  | [] => [[]]
  | first :: rest => first.map fun v => [v] :: rest

variable {p : Program} {supports : Bool}

theorem tuplesOn_cases {domains : List (List Word)} (count : domains.length = p.arity)
    (supports : Bool) :
    (∃ fault, p.firstFault? (product domains) = some fault ∧
        p.tuplesOn domains supports = .error (.evaluation fault)) ∨
      ∃ tuples, p.tuplesOn domains supports = .ok tuples := by
  cases found : p.firstFault? (product domains) with
  | some fault => exact .inl ⟨fault, rfl, tuplesOn_of_fault count found supports⟩
  | none => exact .inr ⟨_, tuplesOn_of_faultless count found supports⟩

theorem tuplesOn_refused {domains : List (List Word)} (refused : domains.length ≠ p.arity)
    (supports : Bool) :
    p.tuplesOn domains supports = .error (.domainCount p.arity domains.length) := by
  rw [tuplesOn, side, visitProduct, if_pos refused]
  rfl

/-- The first value and the others split a product in two. -/
theorem tuplesOn_split (v : Word) (first : List Word) {rest : List (List Word)}
    (count : rest.length + 1 = p.arity) :
    p.tuplesOn ((v :: first) :: rest) supports =
      p.tuplesOn ([v] :: rest) supports >>= fun tuples =>
        (p.tuplesOn (first :: rest) supports).map (tuples ++ ·) := by
  have whole : product ((v :: first) :: rest) = product ([v] :: rest) ++ product (first :: rest) := by
    rw [product, product, product, List.flatMap_cons, List.flatMap_singleton]
  rw [tuplesOn_eq (by simpa using count), tuplesOn_eq (by simpa using count),
    tuplesOn_eq (by simpa using count), whole, table_append]
  cases p.table (product ([v] :: rest)) with
  | error e => rfl
  | ok rows =>
    cases p.table (product (first :: rest)) with
    | error e => rfl
    | ok others => exact congrArg Except.ok (rowsOn_append supports rows others)

/-- The leftmost failure of the parts is the failure of the whole. -/
theorem leftmost_parts (first : List Word) {rest : List (List Word)}
    (count : rest.length + 1 = p.arity) :
    (leftmost (p.parts first rest supports)).map List.flatten =
      p.tuplesOn (first :: rest) supports := by
  induction first with
  | nil =>
    rw [tuplesOn_eq (by simpa using count)]
    rfl
  | cons v first ih =>
    rw [tuplesOn_split v first count, ← ih, parts, List.map_cons, leftmost, ← parts]
    cases p.tuplesOn ([v] :: rest) supports with
    | error e => rfl
    | ok tuples => cases leftmost (p.parts first rest supports) <;> rfl

/-- Gathering agrees with gathering from the left, but for the failure that is reported. -/
theorem Gathers.cases {gather : Gathering} (gathers : Gathers gather)
    (parts : List (Except ExtensionError (List Tuple))) :
    (∃ results, gather parts = .ok results ∧ leftmost parts = .ok results) ∨
      ∃ e first, .error e ∈ parts ∧ gather parts = .error e ∧ leftmost parts = .error first := by
  rcases parts_cases parts with ⟨results, rfl⟩ | fails
  · exact .inl ⟨results, gathers.results results, gathers_leftmost.results results⟩
  · obtain ⟨e, member, reported⟩ := gathers.failure parts fails
    obtain ⟨first, _, leftmost⟩ := gathers_leftmost.failure parts fails
    exact .inr ⟨e, first, member, reported, leftmost⟩

theorem splitSide_cons (gather : Gathering) (supports : Bool) (first : List Word)
    {rest : List (List Word)} (count : rest.length + 1 = p.arity) :
    splitSide gather p (first :: rest) supports =
      (gather (p.parts first rest supports)).map List.flatten := by
  rw [splitSide, if_neg (not_not.mpr (by simpa using count))]

theorem exists_fault_of_mem_parts {first : List Word} {rest : List (List Word)}
    (count : rest.length + 1 = p.arity) {e : ExtensionError}
    (member : .error e ∈ p.parts first rest supports) :
    ∃ piece ∈ pieces (first :: rest), ∃ fault,
      p.firstFault? (product piece) = some fault ∧ e = .evaluation fault := by
  obtain ⟨v, inside, fails⟩ := List.mem_map.mp member
  refine ⟨[v] :: rest, List.mem_map_of_mem inside, ?_⟩
  have piece : ([v] :: rest).length = p.arity := by simpa using count
  rcases tuplesOn_cases piece supports with ⟨fault, found, failed⟩ | ⟨tuples, found⟩
  · rw [failed] at fails
    cases fails
    exact ⟨fault, found, rfl⟩
  · rw [found] at fails
    cases fails

theorem splitSide_cases {gather : Gathering} (gathers : Gathers gather) {domains : List (List Word)}
    (count : domains.length = p.arity) (supports : Bool) :
    (∃ tuples, splitSide gather p domains supports = .ok tuples ∧
        p.tuplesOn domains supports = .ok tuples) ∨
      ∃ piece ∈ pieces domains, ∃ other e, p.firstFault? (product piece) = some other ∧
        splitSide gather p domains supports = .error (.evaluation other) ∧
        p.tuplesOn domains supports = .error e := by
  cases domains with
  | nil =>
    have whole : splitSide gather p [] supports = p.tuplesOn [] supports := by
      rw [splitSide, if_neg (not_not.mpr count)]
    rw [whole]
    rcases tuplesOn_cases count supports with ⟨fault, found, fails⟩ | ⟨tuples, found⟩
    · exact .inr ⟨[], List.mem_singleton.mpr rfl, fault, _, found, fails, fails⟩
    · exact .inl ⟨tuples, found, found⟩
  | cons first rest =>
    rw [splitSide_cons gather supports first count, ← leftmost_parts first count]
    rcases gathers.cases (p.parts first rest supports) with
      ⟨results, gathered, left⟩ | ⟨e, other, member, gathered, left⟩
    · exact .inl ⟨results.flatten, by rw [gathered]; rfl, by rw [left]; rfl⟩
    · obtain ⟨piece, inside, fault, found, rfl⟩ := exists_fault_of_mem_parts count member
      exact .inr ⟨piece, inside, fault, other, found, by rw [gathered]; rfl, by rw [left]; rfl⟩

/-- A side put together from parts is the side of the whole product, whichever failure is reported
    when parts fail. That failure is the first fault of some part. -/
theorem splitSide_eq_tuplesOn {gather : Gathering} (gathers : Gathers gather) (p : Program)
    (domains : List (List Word)) (supports : Bool) :
    (∀ tuples, splitSide gather p domains supports = .ok tuples ↔
        p.tuplesOn domains supports = .ok tuples) ∧
      (domains.length ≠ p.arity →
        splitSide gather p domains supports = .error (.domainCount p.arity domains.length) ∧
          p.tuplesOn domains supports = .error (.domainCount p.arity domains.length)) ∧
      (∀ fault, p.tuplesOn domains supports = .error (.evaluation fault) →
        ∃ piece ∈ pieces domains, ∃ other, p.firstFault? (product piece) = some other ∧
          splitSide gather p domains supports = .error (.evaluation other)) ∧
      ((∀ first rest, domains = first :: rest →
          gather (p.parts first rest supports) = leftmost (p.parts first rest supports)) →
        splitSide gather p domains supports = p.tuplesOn domains supports) := by
  by_cases count : domains.length = p.arity
  · refine ⟨?_, fun refused => absurd count refused, ?_, ?_⟩
    · intro tuples
      rcases splitSide_cases gathers count supports with
        ⟨found, split, whole⟩ | ⟨_, _, other, e, _, split, whole⟩
      · rw [split, whole]
      · rw [split, whole]
        simp
    · intro fault fails
      rcases splitSide_cases gathers count supports with
        ⟨found, _, whole⟩ | ⟨piece, inside, other, _, found, split, _⟩
      · rw [whole] at fails
        cases fails
      · exact ⟨piece, inside, other, found, split⟩
    · intro left
      cases domains with
      | nil => rw [splitSide, if_neg (not_not.mpr count)]
      | cons first rest =>
        rw [splitSide_cons gather supports first count, left first rest rfl,
          leftmost_parts first count]
  · have split : splitSide gather p domains supports =
        .error (.domainCount p.arity domains.length) := by
      unfold splitSide
      rw [if_pos count]
    have whole := tuplesOn_refused count supports
    rw [split, whole]
    refine ⟨fun _ => .rfl, fun _ => ⟨rfl, rfl⟩, ?_, fun _ => rfl⟩
    intro fault fails
    cases fails

/-- Of the parts under a negative value, zero and a positive value, only the one under zero fails. -/
theorem splitSide_eq_tuplesOn_quotientBelow :
    Gathers leftmost ∧
      splitSide leftmost quotientBelow [[2, -3], [3, 0, 3]] true =
        .ok [[-3, 3], [-3, 0], [-3, 3]] ∧
      quotientBelow.tuplesOn [[-3, 0, 2], [3]] false = .error (.evaluation .divisionByZero) ∧
      splitSide leftmost quotientBelow [[-3, 0, 2], [3]] false =
        .error (.evaluation .divisionByZero) := by
  have kept : quotientBelow.tuplesOn [[2, -3], [3, 0, 3]] true = .ok [[-3, 3], [-3, 0], [-3, 3]] :=
    tuplesOn_eq rfl true
  have fault : quotientBelow.tuplesOn [[-3, 0, 2], [3]] false = .error (.evaluation .divisionByZero) :=
    tuplesOn_eq rfl false
  have found := (splitSide_eq_tuplesOn gathers_leftmost quotientBelow [[2, -3], [3, 0, 3]] true).1
  have fails := (splitSide_eq_tuplesOn gathers_leftmost quotientBelow [[-3, 0, 2], [3]] false).2.2.2
  exact ⟨gathers_leftmost, (found _).mpr kept, fault, (fails (fun _ _ _ => rfl)).trans fault⟩

end Program

end Intension
