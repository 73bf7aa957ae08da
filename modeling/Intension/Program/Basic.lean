import Intension.Word
import Intension.Expr.Basic

namespace Intension

/-- Every instruction leaves one value in place of its operands. A literal set leaves its members
    and then their number, and a membership test takes them all with the tested value. -/
inductive Instruction where
  | push (k : Word)
  | load (slot : Nat)
  | count (members : Nat)
  | apply (op : Operator) (arity : Nat)
  deriving DecidableEq

/-- The connectives whose first operand can decide their value. -/
inductive Connective where
  | and
  | or
  | imp
  deriving DecidableEq

/-- When a value decides the connective it belongs to, the given number of instructions and then
    the connective are passed over. The search for the connective only goes forward from the value,
    so what is kept is the distance and not the position. -/
structure Jump where
  connective : Connective
  passed : Nat
  deriving DecidableEq

structure Step where
  instruction : Instruction
  jump? : Option Jump
  deriving DecidableEq

structure Program where
  steps : List Step
  /-- The length of the tuples it is evaluated on. -/
  arity : Nat
  result : Category
  /-- The variables by slot, for a program made from an expression. -/
  scope : List Variable
  deriving DecidableEq

namespace Instruction

def arity : Instruction → Nat
  | apply _ n => n
  | _ => 0

def effect (i : Instruction) : Int := 1 - i.arity

def isBoolean : Instruction → Bool
  | apply op _ => op.isBoolean
  | _ => false

def connective? : Instruction → Option Connective
  | apply .and _ => some .and
  | apply .or _ => some .or
  | apply .imp _ => some .imp
  | _ => none

def text : Instruction → String
  | push k => "push " ++ k.toInt.repr
  | load slot => "load %" ++ slot.repr
  | count members => "count " ++ members.repr
  | apply op n => op.name ++ "/" ++ n.repr

end Instruction

def Connective.name : Connective → String
  | and => "And"
  | or => "Or"
  | imp => "Imp"

/-- The position after the connective, for a jump at the given position. -/
def Jump.target (jump : Jump) (position : Nat) : Nat := position + jump.passed + 2

namespace Program

def instructions (p : Program) : List Instruction := p.steps.map Step.instruction

def jumps? (p : Program) : Option (List (Option (Connective × Nat))) :=
  if p.steps.any (fun s => s.jump?.isSome) then
    some (p.steps.mapIdx fun position s =>
      s.jump?.map fun jump => (jump.connective, jump.target position))
  else none

def positionText (position : Nat) : String :=
  String.ofList (List.replicate (4 - position.repr.length) ' ') ++ position.repr

def stepText (position : Nat) (s : Step) : String :=
  positionText position ++ ": " ++ s.instruction.text ++
    (match s.jump? with
    | some jump => "  ; " ++ jump.connective.name ++ " -> " ++ (jump.target position).repr
    | none => "") ++ "\n"

def listingFrom (position : Nat) : List Step → String
  | [] => ""
  | s :: rest => stepText position s ++ listingFrom (position + 1) rest

def listing (p : Program) : String := listingFrom 0 p.steps

end Program

end Intension
