import Intension.Proofs.Extension.Side

namespace Intension.Program

namespace ConflictSearch

/-- A search that goes on has found at most one conflict. -/
def found : Option Tuple → ConflictSearch
  | Option.none => none
  | some tuple => one tuple

def visit (search : ConflictSearch) (tuple : Tuple) (v : Word) :
    Except ExtensionError (ForInStep ConflictSearch) :=
  if v ≠ 0 then .ok (.yield search)
  else
    match search with
    | none => .ok (.yield (one tuple))
    | _ => .ok (.done many)

theorem sole?_found (conflict? : Option Tuple) : (found conflict?).sole? = conflict? := by
  cases conflict? <;> rfl

theorem visit_support (search : ConflictSearch) (tuple : Tuple) {v : Word} (support : v ≠ 0) :
    search.visit tuple v = .ok (.yield search) := if_pos support

theorem visit_first (tuple : Tuple) :
    (found Option.none).visit tuple 0 = .ok (.yield (found (some tuple))) := rfl

theorem visit_second (conflict tuple : Tuple) :
    (found (some conflict)).visit tuple 0 = .ok (.done many) := rfl

end ConflictSearch

variable {p : Program} {domains : List (List Word)}

/-- The tuples before the first one that has a fault. -/
def faultless (p : Program) (tuples : List Tuple) : List Tuple :=
  tuples.takeWhile fun tuple => (p.evaluate tuple).isOk

theorem faultless_cons_ok {tuple : Tuple} {v : Word} (value : p.evaluate tuple = .ok v)
    (tuples : List Tuple) : p.faultless (tuple :: tuples) = tuple :: p.faultless tuples :=
  List.takeWhile_cons_of_pos (by rw [value]; rfl)

theorem faultless_cons_error {tuple : Tuple} {fault : Fault} (fails : p.evaluate tuple = .error fault)
    (tuples : List Tuple) : p.faultless (tuple :: tuples) = [] :=
  List.takeWhile_cons_of_neg (by rw [fails]; exact Bool.false_ne_true)

theorem firstFault?_cons_ok {tuple : Tuple} {v : Word} (value : p.evaluate tuple = .ok v)
    (tuples : List Tuple) : p.firstFault? (tuple :: tuples) = p.firstFault? tuples := by
  rw [firstFault?, List.findSome?_cons, value]
  rfl

theorem firstFault?_cons_error {tuple : Tuple} {fault : Fault}
    (fails : p.evaluate tuple = .error fault) (tuples : List Tuple) :
    p.firstFault? (tuple :: tuples) = some fault := by
  rw [firstFault?, List.findSome?_cons, fails]

theorem faultless_eq_self {tuples : List Tuple} (clean : p.firstFault? tuples = none) :
    p.faultless tuples = tuples := by
  induction tuples with
  | nil => rfl
  | cons tuple tuples ih =>
    cases value : p.evaluate tuple with
    | error fault => rw [firstFault?_cons_error value] at clean; cases clean
    | ok v =>
      rw [firstFault?_cons_ok value] at clean
      rw [faultless_cons_ok value, ih clean]

/-- The conflicts before the first tuple that has a fault. -/
def earlyConflicts (p : Program) (tuples : List Tuple) : List Tuple :=
  (p.faultless tuples).filter (p.onSide false)

theorem earlyConflicts_cons_support {tuple : Tuple} {v : Word} (value : p.evaluate tuple = .ok v)
    (support : v ≠ 0) (tuples : List Tuple) :
    p.earlyConflicts (tuple :: tuples) = p.earlyConflicts tuples := by
  have side : p.onSide false tuple = false := by rw [onSide, value]; simp [support]
  rw [earlyConflicts, faultless_cons_ok value, List.filter_cons, side, if_neg Bool.false_ne_true]
  rfl

theorem earlyConflicts_cons_conflict {tuple : Tuple} (value : p.evaluate tuple = .ok 0)
    (tuples : List Tuple) :
    p.earlyConflicts (tuple :: tuples) = tuple :: p.earlyConflicts tuples := by
  have side : p.onSide false tuple = true := by rw [onSide, value]; rfl
  rw [earlyConflicts, faultless_cons_ok value, List.filter_cons, side, if_pos rfl]
  rfl

theorem earlyConflicts_cons_error {tuple : Tuple} {fault : Fault}
    (fails : p.evaluate tuple = .error fault) (tuples : List Tuple) :
    p.earlyConflicts (tuple :: tuples) = [] := by
  rw [earlyConflicts, faultless_cons_error fails]
  rfl

/-- What a search for a sole conflict ends with, from the conflicts before the first fault. The
    second one ends it before any fault. -/
def soleOf (conflicts : List Tuple) : Option Fault → Except ExtensionError (Option Tuple)
  | some fault => if 2 ≤ conflicts.length then .ok none else .error (.evaluation fault)
  | none => if 2 ≤ conflicts.length then .ok none else .ok conflicts.head?

theorem soleOf_of_two {conflicts : List Tuple} (two : 2 ≤ conflicts.length) (fault? : Option Fault) :
    soleOf conflicts fault? = .ok none := by
  cases fault? <;> exact if_pos two

theorem search_eq_soleOf (p : Program) (tuples : List Tuple) (conflict? : Option Tuple) :
    (forIn tuples (ConflictSearch.found conflict?)
        (fun tuple search => p.valueOf tuple >>= search.visit tuple)).map ConflictSearch.sole? =
      soleOf (conflict?.toList ++ p.earlyConflicts tuples) (p.firstFault? tuples) := by
  induction tuples generalizing conflict? with
  | nil =>
    change Except.ok (ConflictSearch.found conflict?).sole? = _
    rw [ConflictSearch.sole?_found]
    cases conflict? <;> rfl
  | cons tuple tuples ih =>
    rw [List.forIn_cons, valueOf]
    cases value : p.evaluate tuple with
    | error fault =>
      rw [earlyConflicts_cons_error value, firstFault?_cons_error value, List.append_nil]
      cases conflict? <;> rfl
    | ok v =>
      rw [firstFault?_cons_ok value]
      dsimp only [Except.mapError]
      rw [ok_bind]
      by_cases support : v = 0
      · subst support
        rw [earlyConflicts_cons_conflict value]
        cases conflict? with
        | none =>
          rw [ConflictSearch.visit_first]
          exact ih (some tuple)
        | some conflict =>
          -- The walk is over, so a fault that is to come does not count.
          rw [ConflictSearch.visit_second, soleOf_of_two (Nat.le_add_left 2 _)]
          rfl
      · rw [ConflictSearch.visit_support _ tuple support, earlyConflicts_cons_support value support]
        exact ih conflict?

theorem soleConflict?_eq_soleOf (count : domains.length = p.arity) :
    p.soleConflict? domains =
      soleOf (p.earlyConflicts (product domains)) (p.firstFault? (product domains)) := by
  have search := p.search_eq_soleOf (product domains) none
  rw [Option.toList_none, List.nil_append] at search
  rw [← search, soleConflict?, visitProduct_eq_forIn p count]
  rfl

/-- The sole conflict is the only one that the list of conflicts has. Where that list ends in a fault,
    two conflicts before the fault settle that there is no sole one. -/
theorem soleConflict?_of_conflicts (count : domains.length = p.arity) :
    (∀ conflicts, p.conflicts domains = .ok conflicts →
      p.soleConflict? domains =
        match conflicts with
        | [conflict] => .ok (some conflict)
        | _ => .ok none) ∧
    ∀ fault, p.conflicts domains = .error (.evaluation fault) →
      p.soleConflict? domains =
        if 2 ≤ (p.faultless (product domains)).countP (p.onSide false) then .ok none
        else .error (.evaluation fault) := by
  rw [soleConflict?_eq_soleOf count, conflicts]
  cases found : p.firstFault? (product domains) with
  | none =>
    rw [tuplesOn_of_faultless count found, earlyConflicts, faultless_eq_self found]
    constructor
    · intro conflicts same
      rw [Except.ok.inj same]
      rcases conflicts with _ | ⟨conflict, _ | ⟨other, conflicts⟩⟩
      · rfl
      · rfl
      · exact soleOf_of_two (Nat.le_add_left 2 _) _
    · intro fault fails
      cases fails
  | some fault =>
    rw [tuplesOn_of_fault count found]
    constructor
    · intro conflicts same
      cases same
    · intro other same
      cases same
      rw [List.countP_eq_length_filter]
      rfl

/-- The quotients by two are three, so both tuples of the second product are conflicts. The fault of
    the third product comes after one conflict only, the fault of the fourth after two. -/
theorem soleConflict?_of_conflicts_quotientBelow :
    quotientBelow.soleConflict? [[2], [3, 4]] = .ok (some [2, 3]) ∧
      quotientBelow.soleConflict? [[2], [3, 3]] = .ok none ∧
      quotientBelow.soleConflict? [[2, 0], [3]] = .error (.evaluation .divisionByZero) ∧
      quotientBelow.soleConflict? [[2, 0], [3, 3]] = .ok none :=
  ⟨(soleConflict?_of_conflicts rfl).1 _ (tuplesOn_of_faultless rfl rfl false),
    (soleConflict?_of_conflicts rfl).1 _ (tuplesOn_of_faultless rfl rfl false),
    (soleConflict?_of_conflicts rfl).2 _ (tuplesOn_of_fault rfl rfl false),
    (soleConflict?_of_conflicts rfl).2 _ (tuplesOn_of_fault rfl rfl false)⟩

end Intension.Program
