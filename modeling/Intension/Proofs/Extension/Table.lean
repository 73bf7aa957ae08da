import Mathlib.Data.List.Forall2
import Intension.Extension.Basic
import Intension.Proofs.Extension.Cursor
import Intension.Proofs.Outcome

namespace Intension

theorem Context.run_fst (context : Context) (p : Program) (input : List Word) :
    (context.run p input).1 = p.evaluate input := by
  unfold Program.evaluate run
  split
  · rfl
  · rfl

namespace Program

/-- The value of a tuple, with its fault as the error of a visit. -/
def valueOf (p : Program) (tuple : Tuple) : Except ExtensionError Word :=
  (p.evaluate tuple).mapError .evaluation

theorem visitFrom_eq_forIn {σ : Type} (p : Program) (visit : Visit σ) {c : Cursor} (sound : c.Sound)
    (context : Context) (state : σ) :
    p.visitFrom visit c context state =
      forIn c.pending state (fun tuple state => p.valueOf tuple >>= visit state tuple) := by
  generalize left : c.pending = tuples
  -- Every run starts on an empty stack, so the walk may go on with whichever context it is left.
  induction tuples generalizing c context state with
  | nil =>
    rcases Cursor.next_cases sound with ⟨_, after, ends, _⟩ | ⟨tuple, after, _, _, some⟩
    · rw [visitFrom_none ends]
      rfl
    · cases left.symm.trans some
  | cons tuple tuples ih =>
    rcases Cursor.next_cases sound with ⟨none, _⟩ | ⟨first, after, step, sound, some⟩
    · cases left.symm.trans none
    · cases left.symm.trans some
      have value := context.run_fst p tuple
      rw [visitFrom_some step, List.forIn_cons, valueOf, ← value]
      rcases context.run p tuple with ⟨fault | v, context⟩
      · rfl
      · dsimp only [Except.mapError]
        rw [ok_bind]
        cases visit state tuple v with
        | error e => rfl
        | ok step =>
          cases step with
          | done state => rfl
          | yield state => exact ih sound context state rfl

theorem visitProduct_eq_forIn {σ : Type} (p : Program) {domains : List (List Word)}
    (count : domains.length = p.arity) (visit : Visit σ) (state : σ) :
    p.visitProduct domains visit state =
      forIn (product domains) state (fun tuple state => p.valueOf tuple >>= visit state tuple) := by
  rw [visitProduct, if_neg (not_not.mpr count), visitFrom_eq_forIn p visit (Cursor.sound_start domains),
    Cursor.pending_start]

/-- The given tuples with their values, or the fault of the first one that has none. -/
def table (p : Program) : List Tuple → Except ExtensionError (List (Tuple × Word))
  | [] => .ok []
  | tuple :: tuples => do
    let v ← p.valueOf tuple
    let rows ← table p tuples
    return (tuple, v) :: rows

/-- A visit that goes on after every tuple is a fold over the table. -/
theorem visitProduct_eq_foldl {σ : Type} (p : Program) {domains : List (List Word)}
    (count : domains.length = p.arity) (add : σ → Tuple → Word → σ) (state : σ) :
    p.visitProduct domains (fun state tuple v => .ok (.yield (add state tuple v))) state =
      (p.table (product domains)).map (fun rows =>
        rows.foldl (fun state row => add state row.1 row.2) state) := by
  rw [visitProduct_eq_forIn p count]
  generalize product domains = tuples
  induction tuples generalizing state with
  | nil => rfl
  | cons tuple tuples ih =>
    rw [List.forIn_cons, table]
    cases p.valueOf tuple with
    | error e => rfl
    | ok v =>
      have rest := ih (add state tuple v)
      simp only [ok_bind, pure_eq_ok] at rest ⊢
      rw [rest]
      cases p.table tuples <;> rfl

theorem table_append (p : Program) (tuples others : List Tuple) :
    p.table (tuples ++ others) =
      p.table tuples >>= fun rows => (p.table others).map (rows ++ ·) := by
  induction tuples with
  | nil =>
    rw [List.nil_append, table, ok_bind]
    cases p.table others <;> rfl
  | cons tuple tuples ih =>
    rw [List.cons_append, table, table, ih]
    cases p.valueOf tuple with
    | error e => rfl
    | ok v =>
      rw [ok_bind, ok_bind]
      cases p.table tuples with
      | error e => rfl
      | ok rows =>
        rw [ok_bind, ok_bind, pure_eq_ok, ok_bind]
        cases p.table others <;> rfl

/-- The fault of the first tuple that has one. -/
def firstFault? (p : Program) (tuples : List Tuple) : Option Fault :=
  tuples.findSome? fun tuple =>
    match p.evaluate tuple with
    | .ok _ => none
    | .error fault => some fault

/-- The rows are the tuples with their values. -/
def Lists (p : Program) : List Tuple → List (Tuple × Word) → Prop :=
  List.Forall₂ fun tuple row => row.1 = tuple ∧ p.evaluate tuple = .ok row.2

theorem table_cases (p : Program) (tuples : List Tuple) :
    (∃ fault, p.firstFault? tuples = some fault ∧ p.table tuples = .error (.evaluation fault)) ∨
      p.firstFault? tuples = none ∧ ∃ rows, p.table tuples = .ok rows ∧ p.Lists tuples rows := by
  induction tuples with
  | nil => exact .inr ⟨rfl, [], rfl, .nil⟩
  | cons tuple tuples ih =>
    rw [firstFault?, List.findSome?_cons, table, valueOf]
    cases value : p.evaluate tuple with
    | error fault => exact .inl ⟨fault, rfl, rfl⟩
    | ok v =>
      rcases ih with ⟨fault, found, fails⟩ | ⟨faultless, rows, listed, lists⟩
      · exact .inl ⟨fault, found, by rw [fails]; rfl⟩
      · exact .inr ⟨faultless, (tuple, v) :: rows, by rw [listed]; rfl, .cons ⟨rfl, value⟩ lists⟩

theorem table_of_fault {p : Program} {tuples : List Tuple} {fault : Fault}
    (found : p.firstFault? tuples = some fault) : p.table tuples = .error (.evaluation fault) := by
  rcases p.table_cases tuples with ⟨other, first, fails⟩ | ⟨faultless, _⟩
  · rw [found] at first
    cases first
    exact fails
  · rw [found] at faultless
    cases faultless

theorem exists_table {p : Program} {tuples : List Tuple} (faultless : p.firstFault? tuples = none) :
    ∃ rows, p.table tuples = .ok rows ∧ p.Lists tuples rows := by
  rcases p.table_cases tuples with ⟨other, first, _⟩ | ⟨_, found⟩
  · rw [faultless] at first
    cases first
  · exact found

end Program

end Intension
