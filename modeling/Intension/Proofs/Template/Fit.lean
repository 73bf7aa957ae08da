import Intension.Proofs.Pointwise
import Intension.Proofs.Shape.Form

namespace Intension

open Intension.Expr

/-- The expressions that a wildcard stands for, apart from what a caller demands. -/
def Wildcard.Form : Wildcard → Expr → Prop
  | .any | .anyCond => fun _ => True
  | .var => IsVariable
  | .val => IsConstant
  | .varOrVal => IsSimple
  | .anyAddVal => Binary (· = .add) (fun _ => True) IsConstant
  | .varAddVal => Binary (· = .add) IsVariable IsConstant
  | .sub => Variadic (· = .sub) 0 (fun _ => True)
  | .not => Variadic (· = .not) 0 (fun _ => True)
  | .setOfConstants => Variadic (· = .set) 0 IsConstant
  | .minOfVars => Variadic (· = .min) 2 IsVariable
  | .maxOfVars => Variadic (· = .max) 2 IsVariable
  | .logicalOfVars => Variadic (·.isLogical) 2 IsVariable
  | .sumOfVars => Variadic (· = .add) 2 IsVariable
  | .sumOfVarOrVarTimesConst => IsLinear
  | .sumOfVarTimesVar => IsSumOfProducts

/-- The terms of the sums that a wildcard stands for. -/
def Wildcard.TermForm : Wildcard → Expr → Prop
  | .sumOfVarOrVarTimesConst => fun term => term.IsVariable ∨ term.IsWeighted
  | .sumOfVarTimesVar => IsProduct
  | _ => fun _ => True

variable {demands : Demands} {e : Expr} {depth : Nat} {w : Wildcard}

/-- A wildcard that is not for sums of terms says by itself what it stands for. -/
theorem Wildcard.admits_iff (termless : ∀ term, w.TermForm term) :
    w.admits demands e depth ↔ w.Form e ∧ (w = .anyCond → demands.anyCond e depth) := by
  cases w with
  | anyAddVal =>
    simp only [Form, reduceCtorEq, false_implies, and_true]
    exact sum_test_iff (fun _ b => b.isConst) (by simp [isConst_iff])
  | varAddVal =>
    simp only [Form, reduceCtorEq, false_implies, and_true]
    exact sum_test_iff (fun a b => a.isVar && b.isConst) (by simp [isVar_iff, isConst_iff])
  | sub | not => cases e <;> simp [admits, Form, Variadic, operator?]
  | sumOfVarOrVarTimesConst | sumOfVarTimesVar =>
    exact absurd (termless (.node .add [])) (by simp [TermForm, IsVariable, IsWeighted, IsProduct, Binary])
  | _ => simp [admits, Form, consistsOf_iff, isVar_iff, isConst_iff, IsSimple]

namespace Template

variable {ts : List Template} {l : Leaf} {op : Operator} {args : List Expr}

theorem fitsList_iff : fitsList demands ts args depth ↔
    List.Forall₂ (fun t arg => t.fits demands arg depth) ts args := by
  induction ts generalizing args with
  | nil => cases args <;> simp [fitsList]
  | cons t ts ih => cases args <;> simp [fitsList, ih]

theorem fits_special_node : (special ts).fits demands (.node op args) depth ↔
    demands.special (.node op args) depth ∧
      List.Forall₂ (fun t arg => t.fits demands arg (depth + 1)) ts args := by
  rw [fits, Bool.and_eq_true, fitsList_iff]

theorem fits_node_node {f : Operator} : (node f ts).fits demands (.node op args) depth ↔
    op = f ∧ List.Forall₂ (fun t arg => t.fits demands arg (depth + 1)) ts args := by
  rw [fits, Bool.and_eq_true, fitsList_iff, decide_eq_true_iff]

theorem fits_node {s t : Template} :
    (node op [s, t]).fits demands e depth ↔
      e.Binary (· = op) (s.fits demands · (depth + 1)) (t.fits demands · (depth + 1)) := by
  cases e with
  | leaf l => simp [fits, Binary]
  | node f args => rcases args with _ | ⟨a, _ | ⟨b, _ | ⟨c, rest⟩⟩⟩ <;> simp [fits_node_node, Binary]

theorem fits_leaf (concrete : ∀ w, l ≠ .wild w) :
    (leaf l).fits demands e depth = e.leaf?.any (fun other => other.rank == l.rank) := by
  cases l with
  | wild w => exact absurd rfl (concrete w)
  | var | const | param => cases e <;> rfl

theorem fits_var : (wild .var).fits demands e depth ↔ e.IsVariable := by
  cases e with
  | leaf l => exact isVar_iff
  | node op args => exact isVar_iff (e := .node op args)

theorem fits_val : (wild .val).fits demands e depth ↔ e.IsConstant := by
  cases e with
  | leaf l => exact isConst_iff
  | node op args => exact isConst_iff (e := .node op args)

/-- A term of a linear sum is a variable or fits this template, whoever asks and at any depth. -/
theorem fits_varTimesConst : varTimesConst.fits demands e depth ↔ e.IsWeighted := by
  simp only [varTimesConst, fits_node, fits_var, fits_val]
  rfl

theorem fits_varTimesVar : varTimesVar.fits demands e depth ↔ e.IsProduct := by
  simp only [varTimesVar, fits_node, fits_var]
  rfl

theorem termsFit_iff : termsFit demands w args depth ↔ ∀ term ∈ args, w.TermForm term := by
  induction args with
  | nil => cases w <;> simp [termsFit]
  | cons e es ih =>
    rw [List.forall_mem_cons, ← ih]
    cases w with
    | sumOfVarOrVarTimesConst =>
      rw [termsFit, Bool.and_eq_true, Bool.or_eq_true, isVar_iff, fits_varTimesConst]
      rfl
    | sumOfVarTimesVar =>
      rw [termsFit, Bool.and_eq_true, fits_varTimesVar]
      rfl
    | _ => simp [termsFit, Wildcard.TermForm]

theorem fits_termless (termless : ∀ term, w.TermForm term) :
    (leaf (.wild w)).fits demands e depth = w.admits demands e depth := by
  cases e with
  | leaf l => rfl
  | node op args => rw [fits, termsFit_iff.mpr fun term _ => termless term, Bool.and_true]

theorem fits_wildcard : (leaf (.wild w)).fits demands e depth ↔
    w.Form e ∧ (w = .anyCond → demands.anyCond e depth) := by
  by_cases termless : ∀ term, w.TermForm term
  · rw [fits_termless termless, Wildcard.admits_iff termless]
  · cases w with
    | sumOfVarOrVarTimesConst | sumOfVarTimesVar =>
      cases e <;> simp [fits, termsFit_iff, Wildcard.admits, Wildcard.Form, Wildcard.TermForm, consistsOf,
        IsLinear, IsSumOfProducts, Variadic, and_assoc]
    | _ => exact absurd (fun _ => trivial) termless

theorem fits_wild (unasked : w ≠ .anyCond) : (wild w).fits demands e depth ↔ w.Form e := by
  rw [wild, fits_wildcard]
  simp [unasked]

end Template

end Intension
