import Intension.Proofs.Template.Fit

namespace Intension

/-- Whatever meets the demands of one caller meets those of the other. -/
structure Demands.Implies (demands others : Demands) : Prop where
  anyCond : ∀ e depth, demands.anyCond e depth → others.anyCond e depth
  special : ∀ e depth, demands.special e depth → others.special e depth

namespace Template

/-- The least preorder with these pairs of templates in it that operands keep in their places. -/
inductive Below : Template → Template → Prop
  | refl (t : Template) : Below t t
  | trans {s t u : Template} (first : Below s t) (second : Below t u) : Below s u
  | any (t : Template) : Below t (wild .any)
  | var : Below (wild .var) (wild .varOrVal)
  | val : Below (wild .val) (wild .varOrVal)
  | varAddVal : Below (wild .varAddVal) (wild .anyAddVal)
  | sumOfVars : Below (wild .sumOfVars) (wild .sumOfVarOrVarTimesConst)
  | sub (ts : List Template) : Below (.node .sub ts) (wild .sub)
  | not (ts : List Template) : Below (.node .not ts) (wild .not)
  | special (before after : List Template) {s t : Template} (operand : Below s t) :
    Below (.special (before ++ s :: after)) (.special (before ++ t :: after))
  | node (op : Operator) (before after : List Template) {s t : Template} (operand : Below s t) :
    Below (.node op (before ++ s :: after)) (.node op (before ++ t :: after))

variable {demands others : Demands} {s t : Template} {e : Expr} {depth : Nat}

theorem fits_of_implies (weaker : demands.Implies others) (fits : t.fits demands e depth) :
    t.fits others e depth := by
  induction t using Template.induction generalizing e depth with
  | leaf l =>
    cases l with
    | wild w =>
      obtain ⟨form, asked⟩ := fits_wildcard.mp fits
      exact fits_wildcard.mpr ⟨form, fun same => weaker.anyCond e depth (asked same)⟩
    | var | const | param =>
      rw [fits_leaf (by simp)] at fits ⊢
      exact fits
  | special ts ih =>
    cases e with
    | leaf l => cases fits
    | node op args =>
      obtain ⟨demand, operands⟩ := fits_special_node.mp fits
      exact fits_special_node.mpr ⟨weaker.special _ depth demand,
        forall₂_imp_of_mem (fun u member arg => ih u member) operands⟩
  | node f ts ih =>
    cases e with
    | leaf l => cases fits
    | node op args =>
      obtain ⟨root, operands⟩ := fits_node_node.mp fits
      exact fits_node_node.mpr ⟨root, forall₂_imp_of_mem (fun u member arg => ih u member) operands⟩

theorem fits_root {op : Operator} {ts : List Template} (fits : (node op ts).fits demands e depth) :
    e.Variadic (· = op) 0 (fun _ => True) := by
  cases e with
  | leaf l => cases fits
  | node f args => exact ⟨(fits_node_node.mp fits).1, Nat.zero_le _, fun _ _ => trivial⟩

theorem Below.fits (below : s.Below t) (fits : s.fits demands e depth) : t.fits demands e depth := by
  induction below generalizing e depth with
  | refl t => exact fits
  | trans _ _ first second => exact second (first fits)
  | any t => exact (fits_wild (by decide)).mpr trivial
  | var =>
    rw [fits_wild (by decide)] at fits ⊢
    exact .inl fits
  | val =>
    rw [fits_wild (by decide)] at fits ⊢
    exact .inr fits
  | varAddVal =>
    rw [fits_wild (by decide)] at fits ⊢
    obtain ⟨op, a, b, rfl, root, _, constant⟩ := Expr.binary_iff.mp fits
    exact ⟨root, trivial, constant⟩
  | sumOfVars =>
    rw [fits_wild (by decide)] at fits ⊢
    cases e with
    | leaf l => exact fits.elim
    | node op args => exact ⟨fits.1, fits.2.1, fun arg member => .inl (fits.2.2 arg member)⟩
  | sub ts | not ts =>
    rw [fits_wild (by decide)]
    exact fits_root fits
  | special before after operand ih =>
    cases e with
    | leaf l => cases fits
    | node op args =>
      obtain ⟨demand, operands⟩ := fits_special_node.mp fits
      exact fits_special_node.mpr ⟨demand, forall₂_replaced (fun arg => ih) operands⟩
  | node f before after operand ih =>
    cases e with
    | leaf l => cases fits
    | node op args =>
      obtain ⟨root, operands⟩ := fits_node_node.mp fits
      exact fits_node_node.mpr ⟨root, forall₂_replaced (fun arg => ih) operands⟩

/-- A more general template fits wherever a less general one does, for a caller who demands no more. -/
theorem fits_of_below (weaker : demands.Implies others) (below : s.Below t)
    (fits : s.fits demands e depth) : t.fits others e depth :=
  fits_of_implies weaker (below.fits fits)

/-- A difference equals a sum. -/
def balance : Expr :=
  .node .eq [.node .sub [.leaf (.var ⟨0, "x"⟩), .leaf (.const 1)],
    .node .add [.leaf (.var ⟨0, "x"⟩), .leaf (.var ⟨1, "y"⟩)]]

theorem fits_of_below_balance :
    Demands.standard.Implies ⟨fun _ _ => true, fun _ _ => true⟩ ∧
      (special [node .sub [wild .var, wild .val], wild .sumOfVars]).Below
        (special [wild .sub, wild .sumOfVarOrVarTimesConst]) ∧
      (special [node .sub [wild .var, wild .val], wild .sumOfVars]).fits .standard balance 0 ∧
      (special [wild .sub, wild .sumOfVarOrVarTimesConst]).fits ⟨fun _ _ => true, fun _ _ => true⟩ balance 0 := by
  have weaker : Demands.standard.Implies ⟨fun _ _ => true, fun _ _ => true⟩ :=
    ⟨fun _ _ _ => rfl, fun _ _ _ => rfl⟩
  have below : (special [node .sub [wild .var, wild .val], wild .sumOfVars]).Below
      (special [wild .sub, wild .sumOfVarOrVarTimesConst]) :=
    (Below.special [] [wild .sumOfVars] (.sub _)).trans (.special [wild .sub] [] .sumOfVars)
  have fits : (special [node .sub [wild .var, wild .val], wild .sumOfVars]).fits .standard balance 0 := rfl
  exact ⟨weaker, below, fits, fits_of_below weaker below fits⟩

end Template

end Intension
