import Intension.Word
import Intension.Distinct
import Intension.Wildcard
import Intension.Operator.Basic

namespace Intension

/-- A variable is identified by its number. The name is only printed. -/
structure Variable where
  id : Nat
  name : String
  deriving DecidableEq

inductive Leaf where
  | var (v : Variable)
  | const (k : Word)
  | param (i : Nat)
  | wild (w : Wildcard)
  deriving DecidableEq

inductive Atom where
  | var (v : Variable)
  | const (k : Word)
  deriving DecidableEq

/-- A constraint expression. Operand counts are free here: `Expr.checkedNode` and compilation hold
    them to the arity of the operator. -/
inductive Expr where
  | leaf (l : Leaf)
  | node (op : Operator) (args : List Expr)

inductive ExprError where
  | arity (op : Operator) (got : Nat)
  | missingArgument (parameter given : Nat)
  deriving DecidableEq

def ExprError.message : ExprError → String
  | .arity op got =>
    "operator `" ++ op.name ++ "` expects " ++ op.arity.text ++ " children, got " ++ got.repr
  | .missingArgument parameter given =>
    "parameter %" ++ parameter.repr ++ " has no argument (only " ++ given.repr ++ " given)"

def Atom.leaf : Atom → Leaf
  | .var v => .var v
  | .const k => .const k

namespace Leaf

def var? : Leaf → Option Variable
  | var v => some v
  | _ => none

def const? : Leaf → Option Word
  | const k => some k
  | _ => none

def param? : Leaf → Option Nat
  | param i => some i
  | _ => none

end Leaf

namespace Expr

theorem induction {motive : Expr → Prop} (leaf : ∀ l, motive (.leaf l))
    (node : ∀ op args, (∀ arg ∈ args, motive arg) → motive (.node op args)) (e : Expr) :
    motive e := by
  apply Expr.rec (motive_1 := motive) (motive_2 := fun args => ∀ arg ∈ args, motive arg)
  · exact leaf
  · exact node
  · intro arg member
    contradiction
  · intro head tail valid rest arg member
    rcases List.mem_cons.mp member with rfl | member
    · exact valid
    · exact rest _ member

mutual

def decEq : (a b : Expr) → Decidable (a = b)
  | .leaf l, .leaf m => decidable_of_iff (l = m) (by simp)
  | .leaf _, .node _ _ => isFalse (by simp)
  | .node _ _, .leaf _ => isFalse (by simp)
  | .node f as, .node g bs =>
    match decEqList as bs with
    | isTrue same => decidable_of_iff (f = g) (by simp [same])
    | isFalse differ => isFalse (by simp [differ])

def decEqList : (as bs : List Expr) → Decidable (as = bs)
  | [], [] => isTrue rfl
  | [], _ :: _ => isFalse (by simp)
  | _ :: _, [] => isFalse (by simp)
  | a :: as, b :: bs =>
    match decEq a b with
    | isTrue same =>
      match decEqList as bs with
      | isTrue rest => isTrue (by rw [same, rest])
      | isFalse differ => isFalse (by simp [differ])
    | isFalse differ => isFalse (by simp [differ])

end

instance : DecidableEq Expr := decEq

def checkedNode (op : Operator) (args : List Expr) : Except ExprError Expr :=
  if op.arity.accepts args.length then .ok (.node op args) else .error (.arity op args.length)

def leaf? : Expr → Option Leaf
  | .leaf l => some l
  | .node _ _ => none

def var? (e : Expr) : Option Variable := e.leaf?.bind Leaf.var?

def const? (e : Expr) : Option Word := e.leaf?.bind Leaf.const?

def isVar (e : Expr) : Bool := e.var?.isSome

def isConst (e : Expr) : Bool := e.const?.isSome

def operator? : Expr → Option Operator
  | .leaf _ => none
  | .node op _ => some op

def args : Expr → List Expr
  | .leaf _ => []
  | .node _ args => args

/-- Wildcards have no value, hence no category. -/
def category? : Expr → Option Category
  | .leaf (.wild _) => none
  | .leaf _ => some .integer
  | .node op _ => some op.category

mutual

def leaves : Expr → List Leaf
  | .leaf l => [l]
  | .node _ args => leavesList args

def leavesList : List Expr → List Leaf
  | [] => []
  | e :: es => e.leaves ++ leavesList es

end

mutual

def size : Expr → Nat
  | .leaf _ => 1
  | .node _ args => 1 + sizeList args

def sizeList : List Expr → Nat
  | [] => 0
  | e :: es => e.size + sizeList es

end

mutual

/-- The number of operators above the deepest leaf, an operator without operands counting as a
    leaf. -/
def height : Expr → Nat
  | .leaf _ => 0
  | .node _ args => heightList args

def heightList : List Expr → Nat
  | [] => 0
  | e :: es => max (e.height + 1) (heightList es)

end

/-- Each variable once, at its first appearance. -/
def scope (e : Expr) : List Variable := distinctBy Variable.id (e.leaves.filterMap Leaf.var?)

def constants (e : Expr) : List Word := e.leaves.filterMap Leaf.const?

def parameters (e : Expr) : List Nat := e.leaves.filterMap Leaf.param?

def highestParameter? (e : Expr) : Option Nat := e.parameters.max?

def varConst? (op : Operator) : Expr → Option (Variable × Word)
  | .node f [.leaf (.var v), .leaf (.const k)] => if f = op then some (v, k) else none
  | _ => none

theorem leavesList_eq_flatMap (es : List Expr) : leavesList es = es.flatMap leaves := by
  induction es with
  | nil => rfl
  | cons e es ih => rw [leavesList, ih, List.flatMap_cons]

end Expr

end Intension
