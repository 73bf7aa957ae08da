import Intension.Expr.Basic

namespace Intension

/-- An element of a stream in which operators follow their operands. -/
inductive Token where
  | int (k : Word)
  /-- A place in the evaluated tuple, named by a parameter or a variable in scope. -/
  | slot (i : Nat)
  | var (v : Variable)
  | op (op : Operator) (arity : Nat)
  | unknown (word : String)
  deriving DecidableEq

namespace Token

/-- Operators with any number of operands carry it in front, as in `3add`. -/
def text : Token → String
  | int k => k.toInt.repr
  | slot i => "%" ++ i.repr
  | var v => v.name
  | op o arity => if o.isVariadic then arity.repr ++ o.name else o.name
  | unknown word => word

def render : List Token → String
  | [] => ""
  | [t] => t.text
  | t :: u :: ts => t.text ++ " " ++ render (u :: ts)

def ofLeaf (scope : List Variable) : Leaf → Token
  | .const k => int k
  | .param i => slot i
  | .var v =>
    match scope.idxOf? v with
    | some i => slot i
    | none => var v
  | .wild w => unknown w.name

end Token

namespace Expr

mutual

/-- The stream of an expression. Variables in scope become slots and others stay by name. -/
def tokens (scope : List Variable) : Expr → List Token
  | .leaf l => [Token.ofLeaf scope l]
  | .node op args => tokensList scope args ++ [.op op args.length]

def tokensList (scope : List Variable) : List Expr → List Token
  | [] => []
  | e :: es => e.tokens scope ++ tokensList scope es

end

theorem tokensList_eq_flatMap (scope : List Variable) (es : List Expr) :
    tokensList scope es = es.flatMap (tokens scope) := by
  induction es with
  | nil => rfl
  | cons e es ih => rw [tokensList, ih, List.flatMap_cons]

end Expr

end Intension
