import Intension.Word
import Intension.Operator.Basic

namespace Intension

/-- Ways in which a machine can stop without an answer or an arithmetic fault. -/
inductive Stuck where
  | missingSlot
  | missingOperand
  | unboundSet
  | unbalancedStack
  deriving DecidableEq

inductive Fault where
  | divisionByZero
  | moduloByZero
  | overflow (op : Operator)
  | negativeExponent (exponent : Word)
  | tupleLength (expected got : Nat)
  | stuck (reason : Stuck)
  deriving DecidableEq

def Stuck.message : Stuck → String
  | .missingSlot => "slot outside the tuple"
  | .missingOperand => "too few operands"
  | .unboundSet => "literal set used as an operator"
  | .unbalancedStack => "stack does not hold a single value"

def Fault.message : Fault → String
  | .divisionByZero => "division by zero"
  | .moduloByZero => "modulo by zero"
  | .overflow op => "integer overflow in " ++ op.name
  | .negativeExponent exponent => "negative exponent " ++ exponent.toInt.repr
  | .tupleLength expected got =>
    "tuple has " ++ got.repr ++ " values, program expects " ++ expected.repr
  | .stuck reason => reason.message

namespace Operator

/-- The word of an exact result. Without one, the operator overflows. -/
def inRange (op : Operator) (n : Int) : Except Fault Word :=
  match Word.ofInt? n with
  | some v => .ok v
  | none => .error (.overflow op)

/-- Past 64, raising an exponent by two changes neither the power of a unit nor the fact that
    every other power is out of range. -/
def clampExponent (e : Nat) : Nat := if e ≤ 64 then e else 64 + e % 2

/-- Exponents of 32 bits or more are refused, whatever the base. -/
def power (base exponent : Word) : Except Fault Word :=
  if exponent.toInt < 0 then .error (.negativeExponent exponent)
  else if (UInt32.size : Int) ≤ exponent.toInt then .error (.overflow .pow)
  else inRange .pow (base.toInt.pow (clampExponent exponent.toInt.toNat))

def adjacent (related : Word → Word → Bool) : List Word → Bool
  | v :: w :: rest => related v w && adjacent related (w :: rest)
  | _ => true

/-- The value of an operator on its operands in order. A nonzero operand counts as true. A remainder
    is refused with its quotient. The operands of a membership test are the tested value, the
    members and their number. -/
def apply : Operator → List Word → Except Fault Word
  | neg, [a] => inRange neg (-a.toInt)
  | abs, [a] => inRange abs a.toInt.natAbs
  | add, v :: vs => vs.foldlM (fun sum w => inRange add (sum.toInt + w.toInt)) v
  | sub, [a, b] => inRange sub (a.toInt - b.toInt)
  | mul, v :: vs => vs.foldlM (fun product w => inRange mul (product.toInt * w.toInt)) v
  | div, [a, b] => if b = 0 then .error .divisionByZero else inRange div (a.toInt.tdiv b.toInt)
  | mod, [a, b] =>
    if b = 0 then .error .moduloByZero
    else do
      let _ ← inRange mod (a.toInt.tdiv b.toInt)
      inRange mod (a.toInt.tmod b.toInt)
  | sqr, [a] => inRange sqr (a.toInt * a.toInt)
  | pow, [a, b] => power a b
  | min, v :: vs => .ok (vs.foldl (fun least w => if w < least then w else least) v)
  | max, v :: vs => .ok (vs.foldl (fun most w => if most < w then w else most) v)
  | dist, [a, b] => do
    let difference ← inRange dist (a.toInt - b.toInt)
    inRange dist difference.toInt.natAbs
  | lt, vs => .ok (Word.ofBool (adjacent (fun v w => decide (v < w)) vs))
  | le, vs => .ok (Word.ofBool (adjacent (fun v w => decide (v ≤ w)) vs))
  | ge, vs => .ok (Word.ofBool (adjacent (fun v w => decide (w ≤ v)) vs))
  | gt, vs => .ok (Word.ofBool (adjacent (fun v w => decide (w < v)) vs))
  | eq, vs => .ok (Word.ofBool (adjacent (fun v w => decide (v = w)) vs))
  | ne, vs => .ok (Word.ofBool (decide vs.Nodup))
  | set, _ => .error (.stuck .unboundSet)
  | mem, v :: vs@(_ :: _) => .ok (Word.ofBool (vs.dropLast.contains v))
  | notMem, v :: vs@(_ :: _) => .ok (Word.ofBool (!vs.dropLast.contains v))
  | not, [a] => .ok (Word.ofBool (decide (a = 0)))
  | and, vs => .ok (Word.ofBool (vs.all (· ≠ 0)))
  | or, vs => .ok (Word.ofBool (vs.any (· ≠ 0)))
  | xor, vs => .ok (Word.ofBool (decide (vs.countP (· ≠ 0) % 2 = 1)))
  | iff, v :: vs => .ok (Word.ofBool (vs.all (fun w => decide (w ≠ 0) == decide (v ≠ 0))))
  | imp, [a, b] => .ok (Word.ofBool (decide (a = 0 ∨ b ≠ 0)))
  | ite, [a, b, c] => .ok (if a = 0 then c else b)
  | _, _ => .error (.stuck .missingOperand)

end Operator

end Intension
