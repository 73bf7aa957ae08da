import Intension.Expr.Order

namespace Intension

namespace Expr

def splice (op : Operator) : Expr → List Expr
  | .leaf l => [.leaf l]
  | .node f args => if f = op then args else [.node f args]

/-- Operands under the same associative operator give way to their own operands. -/
def merged (op : Operator) (args : List Expr) : List Expr :=
  if op.isAssociative then args.flatMap (splice op) else args

/-- Operands of symmetric operators are sorted, and a comparison of two operands puts the smaller
    side first. -/
def arranged (op : Operator) (args : List Expr) : Expr :=
  match op, args with
  | .gt, [a, b] => .node .lt [b, a]
  | .ge, [a, b] => .node .le [b, a]
  | _, _ => .node op (if op.isSymmetric then sorted args else args)

/-- What an operator on canonical operands simplifies to, if it does: a double negation, a negated
    test, the absolute value of a difference or the opposite of a constant. -/
def simplified? : Operator → List Expr → Option Expr
  | .not, [.node .not operands] => operands.head?
  | .not, [.node test [a, b]] => test.negation?.map (fun negated => arranged negated [a, b])
  | .abs, [.node .sub operands] => some (arranged .dist operands)
  | .neg, [.leaf (.const k)] => (Word.ofInt? (-k.toInt)).map (fun n => .leaf (.const n))
  | _, _ => none

def settled (op : Operator) (args : List Expr) : Expr :=
  match simplified? op args with
  | some e => e
  | none => arranged op (merged op args)

mutual

def canonical : Expr → Expr
  | .leaf l => .leaf l
  | .node op args => settled op (canonicalList args)

def canonicalList : List Expr → List Expr
  | [] => []
  | e :: es => e.canonical :: canonicalList es

end

theorem canonicalList_eq_map (es : List Expr) : canonicalList es = es.map canonical := by
  induction es with
  | nil => rfl
  | cons e es ih => rw [canonicalList, ih, List.map_cons]

def isCanonical (e : Expr) : Bool := decide (e.canonical = e)

end Expr

end Intension
