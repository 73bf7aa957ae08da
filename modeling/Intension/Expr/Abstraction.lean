import Intension.Expr.Basic

namespace Intension

/-- What an abstraction replaces by parameters. Variables always are. -/
structure Abstraction where
  constants : Bool
  /-- Equal atoms share a parameter. -/
  fold : Bool

def Abstraction.atom? (mode : Abstraction) : Leaf → Option Atom
  | .var v => some (.var v)
  | .const k => if mode.constants then some (.const k) else none
  | _ => none

/-- The state of a numbering. -/
structure Numbering where
  next : Nat
  /-- The numbers that atoms have, where equal atoms share one. -/
  allocated : List (Atom × Nat)
  /-- The atoms that numbers were given to, in the order of the numbers. -/
  replaced : List Atom

/-- The number of the atom, which is a new one unless its number is to be shared. -/
def Abstraction.allocate (mode : Abstraction) (atom : Atom) (s : Numbering) : Nat × Numbering :=
  match if mode.fold then s.allocated.lookup atom else none with
  | some index => (index, s)
  | none =>
    let allocated := if mode.fold then (atom, s.next) :: s.allocated else s.allocated
    (s.next, ⟨s.next + 1, allocated, s.replaced ++ [atom]⟩)

namespace Expr

mutual

def abstractFrom (mode : Abstraction) : Expr → Numbering → Expr × Numbering
  | .leaf l, s =>
    match mode.atom? l with
    | some atom =>
      let (index, s) := mode.allocate atom s
      (.leaf (.param index), s)
    | none => (.leaf l, s)
  | .node op args, s =>
    let (args, s) := abstractListFrom mode args s
    (.node op args, s)

def abstractListFrom (mode : Abstraction) : List Expr → Numbering → List Expr × Numbering
  | [], s => ([], s)
  | e :: es, s =>
    let (e, s) := abstractFrom mode e s
    let (es, s) := abstractListFrom mode es s
    (e :: es, s)

end

def firstFree (e : Expr) : Nat :=
  match e.highestParameter? with
  | some i => i + 1
  | none => 0

/-- The expression with parameters for its atoms, numbered from left to right above those it has,
    and the atoms that the new parameters stand for. -/
def abstracted (e : Expr) (mode : Abstraction) : Expr × List Atom :=
  let (e, s) := e.abstractFrom mode ⟨e.firstFree, [], []⟩
  (e, s.replaced)

mutual

/-- The expression with an argument for each parameter. The leftmost parameter without one is
    reported. -/
def instantiate (arguments : List Atom) : Expr → Except ExprError Expr
  | .leaf (.param i) =>
    match arguments[i]? with
    | some atom => .ok (.leaf atom.leaf)
    | none => .error (.missingArgument i arguments.length)
  | .leaf l => .ok (.leaf l)
  | .node op args => (instantiateList arguments args).map (.node op)

def instantiateList (arguments : List Atom) : List Expr → Except ExprError (List Expr)
  | [] => .ok []
  | e :: es => do
    let e ← instantiate arguments e
    let es ← instantiateList arguments es
    return e :: es

end

end Expr

end Intension
