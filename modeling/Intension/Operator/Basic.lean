namespace Intension

/-- A result is either a truth value, zero or one, or any word. -/
inductive Category where
  | boolean
  | integer
  deriving DecidableEq

inductive Arity where
  | exactly (n : Nat)
  | atLeast (n : Nat)
  deriving DecidableEq

def Arity.bound : Arity → Nat
  | .exactly n | .atLeast n => n

def Arity.accepts : Arity → Nat → Bool
  | .exactly n, count => decide (count = n)
  | .atLeast n, count => decide (n ≤ count)

def Arity.text : Arity → String
  | .exactly n => "exactly " ++ n.repr
  | .atLeast n => "at least " ++ n.repr

/-- The operators in their fixed order, which breaks ties when operands are sorted. -/
inductive Operator where
  | neg | abs | add | sub | mul | div | mod | sqr | pow | min | max | dist
  | lt | le | ge | gt | ne | eq
  | set | mem | notMem
  | not | and | or | xor | iff | imp | ite
  deriving DecidableEq

namespace Operator

def all : List Operator :=
  [neg, abs, add, sub, mul, div, mod, sqr, pow, min, max, dist, lt, le, ge, gt, ne, eq, set, mem,
    notMem, not, and, or, xor, iff, imp, ite]

def ordinal (op : Operator) : Nat := op.ctorIdx

def name : Operator → String
  | neg => "neg" | abs => "abs" | add => "add" | sub => "sub" | mul => "mul" | div => "div"
  | mod => "mod" | sqr => "sqr" | pow => "pow" | min => "min" | max => "max" | dist => "dist"
  | lt => "lt" | le => "le" | ge => "ge" | gt => "gt" | ne => "ne" | eq => "eq"
  | set => "set" | mem => "in" | notMem => "notin"
  | not => "not" | and => "and" | or => "or" | xor => "xor" | iff => "iff" | imp => "imp"
  | ite => "if"

def ofName? (word : String) : Option Operator := all.find? (fun op => op.name == word)

def category : Operator → Category
  | neg | abs | add | sub | mul | div | mod | sqr | pow | min | max | dist | set | ite => .integer
  | lt | le | ge | gt | ne | eq | mem | notMem | not | and | or | xor | iff | imp => .boolean

/-- A set may have no members; every other operator has at least one operand. -/
def arity : Operator → Arity
  | neg | abs | sqr | not => .exactly 1
  | sub | div | mod | pow | dist | mem | notMem | imp => .exactly 2
  | ite => .exactly 3
  | add | mul | lt | le | ge | gt | ne | eq | and | or | xor | iff => .atLeast 2
  | min | max => .atLeast 1
  | set => .atLeast 0

def isVariadic (op : Operator) : Bool :=
  match op.arity with
  | .exactly _ => false
  | .atLeast _ => true

def isSymmetric : Operator → Bool
  | add | mul | min | max | dist | ne | eq | set | and | or | xor | iff => true
  | _ => false

/-- Operands under the same operator may be spliced into its own operand list. -/
def isAssociative : Operator → Bool
  | add | mul | min | max | and | or | xor => true
  | _ => false

def isBoolean (op : Operator) : Bool := decide (op.category = .boolean)

def isRelational : Operator → Bool
  | lt | le | ge | gt | ne | eq => true
  | _ => false

def isLogical : Operator → Bool
  | not | and | or | xor | iff | imp => true
  | _ => false

/-- Integer operators other than the conditional and the literal set. -/
def isArithmetic : Operator → Bool
  | neg | abs | add | sub | mul | div | mod | sqr | pow | min | max | dist => true
  | _ => false

def inversion? : Operator → Option Operator
  | lt => some gt
  | le => some ge
  | ge => some le
  | gt => some lt
  | ne => some ne
  | eq => some eq
  | _ => none

/-- The test that holds of two operands exactly when this one fails. -/
def negation? : Operator → Option Operator
  | lt => some ge
  | le => some gt
  | ge => some lt
  | gt => some le
  | ne => some eq
  | eq => some ne
  | mem => some notMem
  | notMem => some mem
  | _ => none

end Operator

end Intension
