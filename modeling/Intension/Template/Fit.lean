import Intension.Expr.Order
import Intension.Template.Basic

namespace Intension

namespace Expr

/-- An operator of some kind on at least the given number of operands, all of one form. -/
def consistsOf (operator : Operator → Bool) (least : Nat) (operand : Expr → Bool) : Expr → Bool
  | .leaf _ => false
  | .node op args => operator op && decide (least ≤ args.length) && args.all operand

end Expr

/-- What a caller demands of the nodes that a template leaves open, given their depth. -/
structure Demands where
  anyCond : Expr → Nat → Bool
  special : Expr → Nat → Bool

/-- A relation at the root, or an arithmetic operator one level down. -/
def Demands.relationOverArithmetic : Expr → Nat → Bool
  | .node op _, 0 => op.isRelational
  | .node op _, 1 => op.isArithmetic
  | _, _ => false

def Demands.standard : Demands := ⟨fun _ _ => true, relationOverArithmetic⟩

/-- Whether a wildcard stands for the expression, apart from the terms of a sum that have to fit a
    template of their own. -/
def Wildcard.admits (demands : Demands) (e : Expr) (depth : Nat) : Wildcard → Bool
  | .any => true
  | .anyCond => demands.anyCond e depth
  | .var => e.isVar
  | .val => e.isConst
  | .varOrVal => e.isVar || e.isConst
  | .anyAddVal =>
    match e with
    | .node .add [_, b] => b.isConst
    | _ => false
  | .varAddVal =>
    match e with
    | .node .add [a, b] => a.isVar && b.isConst
    | _ => false
  | .sub => decide (e.operator? = some .sub)
  | .not => decide (e.operator? = some .not)
  | .setOfConstants => e.consistsOf (· = .set) 0 Expr.isConst
  | .minOfVars => e.consistsOf (· = .min) 2 Expr.isVar
  | .maxOfVars => e.consistsOf (· = .max) 2 Expr.isVar
  | .logicalOfVars => e.consistsOf Operator.isLogical 2 Expr.isVar
  | .sumOfVars => e.consistsOf (· = .add) 2 Expr.isVar
  | .sumOfVarOrVarTimesConst | .sumOfVarTimesVar => e.consistsOf (· = .add) 2 (fun _ => true)

namespace Template

mutual

/-- Whether an expression fits a template. A leaf other than a wildcard is fitted by every leaf of
    its sort, and operands lie one level deeper. -/
def fits (demands : Demands) : Template → Expr → Nat → Bool
  | .leaf (.wild w), .leaf l, depth => w.admits demands (.leaf l) depth
  | .leaf (.wild w), .node op args, depth =>
    w.admits demands (.node op args) depth && termsFit demands w args (depth + 1)
  | .leaf l, e, _ => e.leaf?.any (fun other => other.rank == l.rank)
  | .special _, .leaf _, _ => false
  | .special templates, .node op args, depth =>
    demands.special (.node op args) depth && fitsList demands templates args (depth + 1)
  | .node _ _, .leaf _, _ => false
  | .node f templates, .node op args, depth =>
    decide (op = f) && fitsList demands templates args (depth + 1)

def fitsList (demands : Demands) : List Template → List Expr → Nat → Bool
  | [], [], _ => true
  | t :: ts, e :: es, depth => fits demands t e depth && fitsList demands ts es depth
  | _, _, _ => false

/-- Whether the operands are terms of the sums that a wildcard stands for. -/
def termsFit (demands : Demands) : Wildcard → List Expr → Nat → Bool
  | .sumOfVarOrVarTimesConst, e :: es, depth =>
    (e.isVar || fits demands varTimesConst e depth) &&
      termsFit demands .sumOfVarOrVarTimesConst es depth
  | .sumOfVarTimesVar, e :: es, depth =>
    fits demands varTimesVar e depth && termsFit demands .sumOfVarTimesVar es depth
  | _, _, _ => true

end

end Template

end Intension
