import Intension.Operator.Value
import Intension.Program.Basic

namespace Intension

/-- What a caller keeps between evaluations. The top of the stack comes first. -/
structure Context where
  stack : List Word

namespace Context

def empty : Context := ⟨[]⟩

def perform (input : List Word) : Instruction → List Word → Except Fault (List Word)
  | .push k, stack => .ok (k :: stack)
  | .load slot, stack =>
    match input[slot]? with
    | some v => .ok (v :: stack)
    | none => .error (.stuck .missingSlot)
  | .count members, stack =>
    match Word.ofInt? members with
    | some v => .ok (v :: stack)
    | none => .error (.overflow .set)
  | .apply op arity, stack =>
    if stack.length < arity then .error (.stuck .missingOperand)
    else
      match op.apply (stack.take arity).reverse with
      | .ok v => .ok (v :: stack.drop arity)
      | .error fault => .error fault

/-- Whether the value on top decides the connective it belongs to, with the number of instructions
    to pass over before that connective. A false antecedent gives way to the true implication. -/
def decided : Option Jump → List Word → Option Nat × List Word
  | some ⟨.and, passed⟩, v :: stack =>
    if v = 0 then (some passed, v :: stack) else (none, v :: stack)
  | some ⟨.or, passed⟩, v :: stack =>
    if v ≠ 0 then (some passed, v :: stack) else (none, v :: stack)
  | some ⟨.imp, passed⟩, v :: stack =>
    if v = 0 then (some passed, 1 :: stack) else (none, v :: stack)
  | _, stack => (none, stack)

/-- The fault that ends the execution, if any, and the stack it leaves. While a number is given,
    that many instructions and then a connective are passed over. The value on top is then that of
    the connective, which can decide a connective around it. -/
def execute (input : List Word) : Option Nat → List Step → List Word → Option Fault × List Word
  | _, [], stack => (none, stack)
  | none, s :: rest, stack =>
    match perform input s.instruction stack with
    | .error fault => (some fault, stack)
    | .ok stack => execute input (decided s.jump? stack).1 rest (decided s.jump? stack).2
  | some 0, s :: rest, stack =>
    execute input (decided s.jump? stack).1 rest (decided s.jump? stack).2
  | some (passed + 1), _ :: rest, stack => execute input (some passed) rest stack

/-- Evaluates a program on a tuple. Values that an earlier evaluation left are dropped. -/
def run (context : Context) (p : Program) (input : List Word) : Except Fault Word × Context :=
  if input.length ≠ p.arity then (.error (.tupleLength p.arity input.length), context)
  else
    match execute input none p.steps [] with
    | (some fault, stack) => (.error fault, ⟨stack⟩)
    | (none, [v]) => (.ok v, ⟨[v]⟩)
    | (none, stack) => (.error (.stuck .unbalancedStack), ⟨stack⟩)

end Context

def Program.evaluate (p : Program) (input : List Word) : Except Fault Word :=
  (Context.empty.run p input).1

end Intension
