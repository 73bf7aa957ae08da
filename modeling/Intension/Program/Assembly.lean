import Intension.Distinct
import Intension.Token.Lexeme
import Intension.Program.Basic

namespace Intension

inductive ProgramError where
  | empty
  | unknownToken (word : String) (position : Nat)
  | sparseSlots (used highest : Nat)
  | mixedVariables
  | badArity (op : Operator) (got : Nat)
  | missingSet (op : Operator) (position : Nat)
  | unbalanced (position : Nat)
  deriving DecidableEq

def ProgramError.message : ProgramError → String
  | .empty => "empty postfix stream"
  | .unknownToken word position =>
    "unknown operator token `" ++ word ++ "` at position " ++ position.repr
  | .sparseSlots used highest =>
    "variable slots are not dense: " ++ used.repr ++ " distinct slots used, highest is %" ++
      highest.repr
  | .mixedVariables => "postfix stream mixes `%i` slots with raw variable references"
  | .badArity op got =>
    "operator `" ++ op.name ++ "` given " ++ got.repr ++ " operands, expects " ++ op.arity.text
  | .missingSet op position =>
    "`" ++ op.name ++ "` at position " ++ position.repr ++ " is not preceded by a literal set"
  | .unbalanced position =>
    "postfix stream does not reduce to a single value (at position " ++ position.repr ++ ")"

namespace Token

def var? : Token → Option Variable
  | var v => some v
  | _ => none

def slot? : Token → Option Nat
  | slot i => some i
  | _ => none

end Token

namespace Program

/-- The numbers of the variables in a stream, at their first appearances. The place of a variable
    in this list is its slot. -/
def variableIds (ts : List Token) : List Nat :=
  distinctBy id ((ts.filterMap Token.var?).map Variable.id)

def slotsUsed (ts : List Token) : List Nat := distinctBy id (ts.filterMap Token.slot?)

/-- The number of slots. A stream has variables or explicit slots but not both, and explicit slots
    leave none out. -/
def slotCount (ts : List Token) : Except ProgramError Nat :=
  let ids := variableIds ts
  let slots := slotsUsed ts
  if !ids.isEmpty && !slots.isEmpty then .error .mixedVariables
  else
    match slots.max? with
    | some highest =>
      if highest + 1 = slots.length then .ok slots.length
      else .error (.sparseSlots slots.length highest)
    | none => .ok ids.length

/-- The instruction of an operator. A membership test takes the members of the set before it. Its
    arity fits a word of 64 bits where the set has fewer than `2 ^ 64 - 2` members, and larger sets
    are not accounted for. -/
def operatorInstruction (op : Operator) (arity : Nat) (previous : Option Instruction)
    (position : Nat) : Except ProgramError Instruction :=
  if !op.arity.accepts arity then .error (.badArity op arity)
  else
    match op with
    | .set => .ok (.count arity)
    | .mem | .notMem =>
      match previous with
      | some (.count members) => .ok (.apply op (members + 2))
      | _ => .error (.missingSet op position)
    | _ => .ok (.apply op arity)

def instruction (ids : List Nat) (previous : Option Instruction) (position : Nat) :
    Token → Except ProgramError Instruction
  | .int k => .ok (.push k)
  | .slot i => .ok (.load i)
  | .var v => .ok (.load (ids.idxOf v.id))
  | .unknown word => .error (.unknownToken word position)
  | .op op arity => operatorInstruction op arity previous position

/-- The instructions of a stream, given the number of values that earlier ones leave. In the end
    there is exactly one. -/
def assemble (ids : List Nat) (previous : Option Instruction) (height position : Nat) :
    List Token → Except ProgramError (List Instruction)
  | [] => if height = 1 then .ok [] else .error (.unbalanced position)
  | t :: ts => do
    let i ← instruction ids previous position t
    if height < i.arity then throw (.unbalanced position)
    let rest ← assemble ids (some i) (height - i.arity + 1) (position + 1) ts
    return i :: rest

/-- The jump of a value, given how many values lie on the stack from it up and how many instructions
    have been looked at, which are all behind it. The instruction that takes it as its first operand
    is the one that takes all of these values. -/
def jumpFrom (height passed : Nat) : List Instruction → Option Jump
  | [] => none
  | i :: rest =>
    if height < i.arity then none
    else if height = i.arity then i.connective?.map (fun connective => ⟨connective, passed⟩)
    else jumpFrom (height - i.arity + 1) (passed + 1) rest

/-- Truth values get their jumps where short circuits are wanted. -/
def withJumps (shortCircuit : Bool) : List Instruction → List Step
  | [] => []
  | i :: rest =>
    ⟨i, if shortCircuit && i.isBoolean then jumpFrom 1 0 rest else none⟩ ::
      withJumps shortCircuit rest

def resultCategory (code : List Instruction) : Category :=
  match code.getLast? with
  | some (.apply op _) => op.category
  | _ => .integer

def ofTokens (ts : List Token) (shortCircuit : Bool) : Except ProgramError Program := do
  if ts.isEmpty then throw .empty
  let arity ← slotCount ts
  let code ← assemble (variableIds ts) none 0 0 ts
  return ⟨withJumps shortCircuit code, arity, resultCategory code, []⟩

/-- Variables become slots in the order of their first appearance. Beside parameters they stay by
    name, and such a stream is refused. -/
def ofExpr (e : Expr) (shortCircuit : Bool) : Except ProgramError Program := do
  let scope := e.scope
  let p ← ofTokens (e.tokens (if e.parameters.isEmpty then scope else [])) shortCircuit
  return { p with scope }

def ofText (source : String) (shortCircuit : Bool) : Except ProgramError Program :=
  ofTokens (Token.ofText source) shortCircuit

end Program

end Intension
