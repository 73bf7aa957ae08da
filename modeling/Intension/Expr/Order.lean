import Intension.Expr.Basic

namespace Intension

/-- Variables come before parameters, parameters before operators, operators before constants and
    constants before wildcards. Operators have rank two. -/
def Leaf.rank : Leaf → Nat
  | .var _ => 0
  | .param _ => 1
  | .const _ => 3
  | .wild _ => 4

def Leaf.compare : Leaf → Leaf → Ordering
  | .var v, .var w => (Ord.compare v.id w.id).then (Ord.compare v.name w.name)
  | .param i, .param j => Ord.compare i j
  | .const k, .const m => Ord.compare k m
  | .wild w, .wild x => Ord.compare w.ordinal x.ordinal
  | l, m => Ord.compare l.rank m.rank

namespace Expr

mutual

/-- Under equal ranks, operators compare by their own order, then by the number of operands, then
    by the operands from left to right. -/
def compare : Expr → Expr → Ordering
  | .leaf l, .leaf m => l.compare m
  | .leaf l, .node _ _ => Ord.compare l.rank 2
  | .node _ _, .leaf m => Ord.compare 2 m.rank
  | .node f as, .node g bs =>
    (Ord.compare f.ordinal g.ordinal).then
      ((Ord.compare as.length bs.length).then (compareList as bs))

def compareList : List Expr → List Expr → Ordering
  | [], [] => .eq
  | [], _ :: _ => .lt
  | _ :: _, [] => .gt
  | a :: as, b :: bs => (compare a b).then (compareList as bs)

end

instance : Ord Expr := ⟨compare⟩

def sorted (es : List Expr) : List Expr := es.mergeSort (fun a b => (compare a b).isLE)

end Expr

end Intension
