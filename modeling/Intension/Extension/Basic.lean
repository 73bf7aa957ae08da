import Intension.Machine
import Intension.Width
import Intension.Extension.Cursor

namespace Intension

abbrev Tuple := List Word

inductive ExtensionError where
  | evaluation (fault : Fault)
  | range (value : Word) (width : Width)
  | domainCount (expected got : Nat)
  deriving DecidableEq

def ExtensionError.message : ExtensionError → String
  | .evaluation fault => fault.message
  | .range value width => "value " ++ value.toInt.repr ++ " does not fit in " ++ width.name
  | .domainCount expected got =>
    got.repr ++ " domains given, program expects " ++ expected.repr

namespace Program

abbrev Visit (σ : Type) := σ → Tuple → Word → Except ExtensionError (ForInStep σ)

def visitFrom {σ : Type} (p : Program) (visit : Visit σ) (cursor : Cursor) (context : Context)
    (state : σ) : Except ExtensionError σ :=
  match _ : cursor.next with
  | (none, _) => .ok state
  | (some tuple, after) =>
    match context.run p tuple with
    | (.error fault, _) => .error (.evaluation fault)
    | (.ok value, context) =>
      match visit state tuple value with
      | .error e => .error e
      | .ok (.done state) => .ok state
      | .ok (.yield state) => visitFrom p visit after context state
termination_by cursor.remaining
decreasing_by exact Cursor.remaining_next ‹_›

section

variable {σ : Type} {p : Program} {visit : Visit σ} {cursor after : Cursor} {tuple : Tuple}

theorem visitFrom_none (step : cursor.next = (none, after)) (context : Context) (state : σ) :
    p.visitFrom visit cursor context state = .ok state := by
  rw [visitFrom]
  split
  · rfl
  · rename_i given
    cases step.symm.trans given

theorem visitFrom_some (step : cursor.next = (some tuple, after)) (context : Context) (state : σ) :
    p.visitFrom visit cursor context state =
      match context.run p tuple with
      | (.error fault, _) => .error (.evaluation fault)
      | (.ok value, context) =>
        match visit state tuple value with
        | .error e => .error e
        | .ok (.done state) => .ok state
        | .ok (.yield state) => p.visitFrom visit after context state := by
  rw [visitFrom]
  split
  · rename_i ends
    cases step.symm.trans ends
  · rename_i given
    cases step.symm.trans given
    rfl

end

/-- Visits the tuples of a product in order with their values, in a single context. There is one
    domain for each slot. -/
def visitProduct {σ : Type} (p : Program) (domains : List (List Word)) (visit : Visit σ)
    (state : σ) : Except ExtensionError σ :=
  if domains.length ≠ p.arity then .error (.domainCount p.arity domains.length)
  else visitFrom p visit (.start domains) .empty state

end Program

end Intension
