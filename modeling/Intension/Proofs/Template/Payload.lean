import Intension.Proofs.Template.Fit

namespace Intension

/-- Leaves of one sort. A wildcard is of one sort only with itself. -/
inductive Leaf.SameSort : Leaf → Leaf → Prop
  | var (v w : Variable) : SameSort (.var v) (.var w)
  | const (j k : Word) : SameSort (.const j) (.const k)
  | param (i j : Nat) : SameSort (.param i) (.param j)
  | wild (w : Wildcard) : SameSort (.wild w) (.wild w)

/-- Expressions that differ only in which variables, constants and parameters they have. -/
inductive Expr.SameShape : Expr → Expr → Prop
  | leaf {l m : Leaf} (sort : l.SameSort m) : SameShape (.leaf l) (.leaf m)
  | node (op : Operator) {as bs : List Expr} (each : List.Forall₂ SameShape as bs) :
    SameShape (.node op as) (.node op bs)

inductive Template.SameShape : Template → Template → Prop
  | leaf {l m : Leaf} (sort : l.SameSort m) : SameShape (.leaf l) (.leaf m)
  | special {ss ts : List Template} (each : List.Forall₂ SameShape ss ts) :
    SameShape (.special ss) (.special ts)
  | node (op : Operator) {ss ts : List Template} (each : List.Forall₂ SameShape ss ts) :
    SameShape (.node op ss) (.node op ts)

/-- The templates in which nothing is left to the caller. -/
inductive Template.SelfContained : Template → Prop
  | leaf {l : Leaf} (unasked : l ≠ .wild .anyCond) : SelfContained (.leaf l)
  | node (op : Operator) {ts : List Template} (each : ∀ t ∈ ts, SelfContained t) :
    SelfContained (.node op ts)

/-- A caller whose demands do not tell expressions of one shape apart. -/
def Demands.SeesShape (demands : Demands) : Prop :=
  ∀ a b depth, Expr.SameShape a b → demands.anyCond a depth = demands.anyCond b depth ∧
    demands.special a depth = demands.special b depth

theorem Leaf.SameSort.refl (l : Leaf) : l.SameSort l := by
  cases l with
  | var v => exact .var v v
  | const k => exact .const k k
  | param i => exact .param i i
  | wild w => exact .wild w

namespace Expr

variable {a b : Expr} {first second operand : Expr → Prop} {operator : Operator → Prop} {least : Nat}

theorem SameShape.isVariable (same : a.SameShape b) : a.IsVariable ↔ b.IsVariable := by
  cases same with
  | leaf sort => cases sort <;> rfl
  | node op each => rfl

theorem SameShape.isConstant (same : a.SameShape b) : a.IsConstant ↔ b.IsConstant := by
  cases same with
  | leaf sort => cases sort <;> rfl
  | node op each => rfl

theorem SameShape.binary (same : a.SameShape b)
    (left : ∀ {a b : Expr}, a.SameShape b → (first a ↔ first b))
    (right : ∀ {a b : Expr}, a.SameShape b → (second a ↔ second b)) :
    a.Binary operator first second ↔ b.Binary operator first second := by
  cases same with
  | leaf sort => rfl
  | node op each =>
    rcases each with _ | ⟨head, rest⟩
    · rfl
    rcases rest with _ | ⟨last, rest⟩
    · rfl
    rcases rest with _ | ⟨other, rest⟩
    · exact and_congr_right fun _ => and_congr (left head) (right last)
    · rfl

theorem SameShape.variadic (same : a.SameShape b)
    (kept : ∀ {a b : Expr}, a.SameShape b → (operand a ↔ operand b)) :
    a.Variadic operator least operand ↔ b.Variadic operator least operand := by
  cases same with
  | leaf sort => rfl
  | node op each =>
    rw [Variadic, Variadic, each.length_eq, forall_mem_iff_of_forall₂ (p := operand) kept each]

theorem SameShape.isWeighted (same : a.SameShape b) : a.IsWeighted ↔ b.IsWeighted :=
  same.binary SameShape.isVariable SameShape.isConstant

theorem SameShape.isProduct (same : a.SameShape b) : a.IsProduct ↔ b.IsProduct :=
  same.binary SameShape.isVariable SameShape.isVariable

/-- No wildcard looks at which variable, constant or parameter a leaf is. -/
theorem SameShape.form (same : a.SameShape b) (w : Wildcard) : w.Form a ↔ w.Form b := by
  cases w with
  | any | anyCond => rfl
  | var => exact same.isVariable
  | val => exact same.isConstant
  | varOrVal => exact or_congr same.isVariable same.isConstant
  | anyAddVal => exact same.binary (fun _ => Iff.rfl) SameShape.isConstant
  | varAddVal => exact same.binary SameShape.isVariable SameShape.isConstant
  | sub | not => exact same.variadic (fun _ => Iff.rfl)
  | setOfConstants => exact same.variadic SameShape.isConstant
  | minOfVars | maxOfVars | logicalOfVars | sumOfVars => exact same.variadic SameShape.isVariable
  | sumOfVarOrVarTimesConst =>
    exact same.variadic fun term => or_congr term.isVariable term.isWeighted
  | sumOfVarTimesVar => exact same.variadic SameShape.isProduct

end Expr

theorem Demands.standard_seesShape : Demands.standard.SeesShape := by
  intro a b depth same
  refine ⟨rfl, ?_⟩
  cases same with
  | leaf sort => rfl
  | node op each => rcases depth with _ | _ | depth <;> rfl

namespace Template

variable {demands : Demands} {s t : Template} {a b e : Expr}

theorem SameShape.refl (t : Template) : t.SameShape t := by
  induction t using Template.induction with
  | leaf l => exact .leaf (.refl l)
  | special ts ih => exact .special (List.forall₂_same.mpr ih)
  | node op ts ih => exact .node op (List.forall₂_same.mpr ih)

theorem fits_concrete {l m : Leaf} (sort : l.SameSort m) (concrete : ∀ w, l ≠ .wild w)
    (same : a.SameShape b) (depth : Nat) :
    (leaf l).fits demands a depth = (leaf m).fits demands b depth := by
  cases same with
  | leaf leaves =>
    cases sort with
    | wild w => exact absurd rfl (concrete w)
    | _ => cases leaves <;> rfl
  | node op each =>
    cases sort with
    | wild w => exact absurd rfl (concrete w)
    | _ => rfl

theorem fits_iff_of_sameShape (sees : demands.SeesShape) (templates : s.SameShape t)
    (same : a.SameShape b) (depth : Nat) : s.fits demands a depth ↔ t.fits demands b depth := by
  induction s using Template.induction generalizing t a b depth with
  | leaf l =>
    cases templates with
    | leaf sort =>
      by_cases concrete : ∀ w, l ≠ .wild w
      · rw [fits_concrete sort concrete same depth]
      · obtain ⟨w, rfl⟩ : ∃ w, l = .wild w := by simpa using concrete
        cases sort
        rw [fits_wildcard, fits_wildcard, same.form w, (sees a b depth same).1]
  | special ss ih =>
    cases templates with
    | special each =>
      cases same with
      | leaf sort => rfl
      | node op operands =>
        rw [fits_special_node, fits_special_node, (sees _ _ depth (.node op operands)).2]
        refine and_congr_right fun _ => forall₂_iff_of_forall₂ each operands ?_
        exact fun s member t a b templates same => ih s member templates same (depth + 1)
  | node f ss ih =>
    cases templates with
    | node f each =>
      cases same with
      | leaf sort => rfl
      | node op operands =>
        rw [fits_node_node, fits_node_node]
        refine and_congr_right fun _ => forall₂_iff_of_forall₂ each operands ?_
        exact fun s member t a b templates same => ih s member templates same (depth + 1)

theorem SelfContained.fits_iff (contained : t.SelfContained) {others : Demands} {depth deeper : Nat} :
    t.fits demands e depth ↔ t.fits others e deeper := by
  induction contained generalizing e depth deeper with
  | leaf unasked =>
    rename_i l
    cases l with
    | wild w =>
      have other : w ≠ .anyCond := fun same => unasked (congrArg Leaf.wild same)
      exact (fits_wild other).trans (fits_wild other).symm
    | var | const | param => rw [fits_leaf (by simp), fits_leaf (by simp)]
  | node f each ih =>
    cases e with
    | leaf l => rfl
    | node op args =>
      rw [fits_node_node, fits_node_node]
      exact and_congr_right fun _ => forall₂_iff_of_mem fun t member arg => ih t member

/-- Whether an expression fits a template depends on the sorts of their leaves alone, and for a template
    that leaves nothing to the caller on neither the caller nor the depth. -/
theorem fits_of_shape :
    (∀ s t : Template, s.SameShape t → ∀ a b : Expr, a.SameShape b → ∀ depth,
      s.fits .standard a depth = t.fits .standard b depth) ∧
    ∀ t : Template, t.SelfContained → ∀ (e : Expr) (demands others : Demands) (depth deeper : Nat),
      t.fits demands e depth = t.fits others e deeper := by
  constructor
  · intro s t templates a b same depth
    exact Bool.eq_iff_iff.mpr (fits_iff_of_sameShape Demands.standard_seesShape templates same depth)
  · intro t contained e demands others depth deeper
    exact Bool.eq_iff_iff.mpr contained.fits_iff

/-- A sum that stays below a parameter. -/
def bounded (v : Variable) (k : Word) (i : Nat) : Expr :=
  .node .lt [.node .add [.leaf (.var v), .leaf (.const k)], .leaf (.param i)]

def boundedSum (k : Word) (i : Nat) : Template :=
  special [node .add [wild .var, leaf (.const k)], leaf (.param i)]

theorem fits_of_shape_boundedSum :
    ((boundedSum 1 0).SameShape (boundedSum 2 5) ∧ (bounded ⟨0, "x"⟩ 3 0).SameShape (bounded ⟨7, "y"⟩ 4 9) ∧
      (boundedSum 1 0).fits .standard (bounded ⟨0, "x"⟩ 3 0) 0 =
        (boundedSum 2 5).fits .standard (bounded ⟨7, "y"⟩ 4 9) 0) ∧
    (node .lt [wild .anyAddVal, wild .any]).SelfContained ∧
      (node .lt [wild .anyAddVal, wild .any]).fits .standard (bounded ⟨0, "x"⟩ 3 0) 0 =
        (node .lt [wild .anyAddVal, wild .any]).fits ⟨fun _ _ => false, fun _ _ => false⟩
          (bounded ⟨0, "x"⟩ 3 0) 7 := by
  have templates : (boundedSum 1 0).SameShape (boundedSum 2 5) :=
    .special (.cons (.node .add (.cons (.refl _) (.cons (.leaf (.const 1 2)) .nil)))
      (.cons (.leaf (.param 0 5)) .nil))
  have relations : (bounded ⟨0, "x"⟩ 3 0).SameShape (bounded ⟨7, "y"⟩ 4 9) :=
    .node .lt (.cons (.node .add (.cons (.leaf (.var _ _)) (.cons (.leaf (.const 3 4)) .nil)))
      (.cons (.leaf (.param 0 9)) .nil))
  have contained : (node .lt [wild .anyAddVal, wild .any]).SelfContained := by
    refine .node .lt fun t member => ?_
    rcases List.mem_pair.mp member with rfl | rfl <;> exact .leaf (by decide)
  exact ⟨⟨templates, relations, fits_of_shape.1 _ _ templates _ _ relations 0⟩, contained,
    fits_of_shape.2 _ contained _ _ _ 0 7⟩

end Template

end Intension
