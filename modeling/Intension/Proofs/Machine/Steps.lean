import Intension.Machine
import Intension.Proofs.Operator.Truth
import Intension.Proofs.Program.Jumps

namespace Intension.Context

open Program (withJumps jumpBefore)

/-- The stack that an execution leaves, or the fault that ends it. -/
def ending : Option Fault × List Word → Except Fault (List Word)
  | (some fault, _) => .error fault
  | (none, stack) => .ok stack

/-- Goes on after an instruction that has the given jump. -/
def resume (input : List Word) (jump : Option Jump) (steps : List Step) (stack : List Word) :
    Except Fault (List Word) :=
  ending (execute input (decided jump stack).1 steps (decided jump stack).2)

theorem decided_none (stack : List Word) : decided none stack = (none, stack) := by
  cases stack <;> rfl

theorem resume_none (input : List Word) (steps : List Step) (stack : List Word) :
    resume input none steps stack = ending (execute input none steps stack) := by
  rw [resume, decided_none]

theorem ending_step (input : List Word) (s : Step) (steps : List Step) (stack : List Word) :
    ending (execute input none (s :: steps) stack) = (do
      let stack ← perform input s.instruction stack
      resume input s.jump? steps stack) := by
  simp only [execute]
  cases perform input s.instruction stack <;> rfl

theorem ending_withJumps (input : List Word) (shortCircuit : Bool) (i : Instruction)
    (rest : List Instruction) (stack : List Word) :
    ending (execute input none (withJumps shortCircuit (i :: rest)) stack) = (do
      let stack ← perform input i stack
      resume input (jumpBefore shortCircuit i.isBoolean rest) (withJumps shortCircuit rest) stack) :=
  ending_step input _ _ stack

theorem execute_over (input : List Word) (shortCircuit : Bool) (code rest : List Instruction)
    (passed : Nat) (stack : List Word) :
    execute input (some (passed + code.length)) (withJumps shortCircuit (code ++ rest)) stack =
      execute input (some passed) (withJumps shortCircuit rest) stack := by
  induction code with
  | nil => rfl
  | cons i code ih => exact ih

theorem ending_over (input : List Word) (shortCircuit : Bool) (code rest : List Instruction)
    (i : Instruction) (stack : List Word) :
    ending (execute input (some code.length) (withJumps shortCircuit (code ++ i :: rest)) stack) =
      resume input (jumpBefore shortCircuit i.isBoolean rest) (withJumps shortCircuit rest) stack := by
  have skipped := execute_over input shortCircuit code (i :: rest) 0 stack
  rw [Nat.zero_add] at skipped
  rw [skipped]
  rfl

theorem perform_load {input : List Word} {slot : Nat} (bound : slot < input.length)
    (stack : List Word) : perform input (.load slot) stack = .ok (input.getD slot 0 :: stack) := by
  rw [perform, List.getD_eq_getElem?_getD, List.getElem?_eq_getElem bound]
  rfl

theorem perform_apply (input : List Word) (op : Operator) (vs stack : List Word) :
    perform input (.apply op vs.length) (vs.reverse ++ stack) = (do
      let v ← op.apply vs
      return v :: stack) := by
  have enough : ¬ (vs.reverse ++ stack).length < vs.length := by
    rw [List.length_append, List.length_reverse]
    omega
  have taken : (vs.reverse ++ stack).take vs.length = vs.reverse := by
    rw [← List.length_reverse, List.take_left]
  have left : (vs.reverse ++ stack).drop vs.length = stack := by
    rw [← List.length_reverse, List.drop_left]
  rw [perform, if_neg enough, taken, left, List.reverse_reverse]
  cases op.apply vs <;> rfl

theorem perform_count (input : List Word) (members : Nat) (stack : List Word) :
    perform input (.count members) stack = (do
      let v ← Operator.inRange .set members
      return v :: stack) := by
  rw [perform, Operator.inRange]
  cases Word.ofInt? members <;> rfl

theorem perform_test (input : List Word) {op : Operator} (test : op = .mem ∨ op = .notMem)
    (v count : Word) (vs stack : List Word) :
    perform input (.apply op (vs.length + 2)) (count :: (vs.reverse ++ v :: stack)) =
      .ok (Word.ofBool (vs.contains v == decide (op = .mem)) :: stack) := by
  have operands := perform_apply input op (v :: (vs ++ [count])) stack
  have length : (v :: (vs ++ [count])).length = vs.length + 2 := by
    rw [List.length_cons, List.length_append, List.length_singleton]
  have order : (v :: (vs ++ [count])).reverse ++ stack = count :: (vs.reverse ++ v :: stack) := by
    simp
  rw [length, order] at operands
  rw [operands, Operator.apply_test test]
  rfl

theorem decided_connective {v : Word} (truth : v = 0 ∨ v = 1) (op : Operator) (arity passed : Nat)
    (stack : List Word) :
    decided ((Instruction.apply op arity).connective?.map (fun connective => ⟨connective, passed⟩))
      (v :: stack) =
        match op.decided? v with
        | some w => (some passed, w :: stack)
        | none => (none, v :: stack) := by
  cases op <;> rcases truth with rfl | rfl <;> rfl

theorem run_eq_ending {p : Program} {input : List Word} (length : input.length = p.arity)
    (context : Context) : (context.run p input).1 = (do
      let stack ← ending (execute input none p.steps [])
      match stack with
      | [v] => .ok v
      | _ => .error (.stuck .unbalancedStack)) := by
  unfold run
  rw [if_neg (by omega)]
  rcases execute input none p.steps [] with ⟨_ | fault, _ | ⟨v, _ | ⟨w, stack⟩⟩⟩ <;> rfl

end Intension.Context
