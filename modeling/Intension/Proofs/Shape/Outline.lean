import Intension.Shape
import Intension.Proofs.Template.Fit

namespace Intension

theorem Operator.not_isLogical_of_isRelational {op : Operator} (relational : op.isRelational) :
    ¬ op.isLogical := by
  intro logical
  cases op <;> cases relational <;> cases logical

namespace Template

open Intension.Expr

variable {s t : Template} {e : Expr} {depth : Nat}

/-- A special node fits the operators of some kind wherever the demand is of that kind. -/
theorem fits_special (kind : Operator → Bool)
    (demand : ∀ op args, Demands.standard.special (.node op args) depth = kind op) :
    (special [s, t]).fits .standard e depth ↔
      e.Binary (kind ·) (s.fits .standard · (depth + 1)) (t.fits .standard · (depth + 1)) := by
  cases e with
  | leaf l => simp [fits, Binary]
  | node op args =>
    rcases args with _ | ⟨a, _ | ⟨b, _ | ⟨c, rest⟩⟩⟩ <;> simp [fits_special_node, Binary, demand]

theorem fits_relation :
    (special [s, t]).fits .standard e 0 ↔
      e.Binary (·.isRelational) (s.fits .standard · 1) (t.fits .standard · 1) :=
  fits_special _ (fun _ _ => rfl)

theorem fits_arithmetic :
    (special [wild .var, wild .varOrVal]).fits .standard e 1 ↔ e.IsArithmetic := by
  rw [fits_special Operator.isArithmetic (fun _ _ => rfl)]
  simp only [fits_wild (w := .var) (by decide), fits_wild (w := .varOrVal) (by decide)]
  rfl

theorem fits_extremum : (wild .minOfVars).fits .standard e depth ∨
    (wild .maxOfVars).fits .standard e depth ↔ e.IsExtremum 2 := by
  rw [fits_wild (by decide), fits_wild (by decide)]
  cases e <;> simp [Wildcard.Form, IsExtremum, Variadic, or_and_right]

end Template

namespace Shape

open Intension.Expr

/-- The operands that are neither variables nor constants in relations of some shape, as far as its
    templates tell. -/
def Compound : Shape → Expr → Prop
  | arithmeticRelation => IsArithmetic
  | linearSum => IsLinear
  | sumOfProducts => IsSumOfProducts
  | extremum => IsExtremum 2
  | _ => fun _ => False

/-- The expressions that some template of a shape fits. -/
def Outline : Shape → Expr → Prop
  | unaryRelation => Relates IsVariable IsConstant
  | binaryRelation => Relates IsVariable IsVariable
  | arithmeticRelation => Relates IsArithmetic IsSimple
  | membership => Binary (fun op => op = .mem ∨ op = .notMem) IsVariable (Variadic (· = .set) 0 IsConstant)
  | logicalOfVariables => Variadic (·.isLogical) 2 IsVariable
  | linearSum => Relates IsLinear IsSimple
  | sumOfProducts => Relates IsSumOfProducts IsSimple
  | extremum => Relates (IsExtremum 2) IsSimple

theorem outline_iff {shape : Shape} {e : Expr} :
    shape.Outline e ↔ ∃ template, (shape, template) ∈ catalogue ∧ template.fits .standard e 0 := by
  cases shape with
  | extremum =>
    have either : IsExtremum 2 = fun a =>
        (Template.wild .minOfVars).fits .standard a 1 ∨ (Template.wild .maxOfVars).fits .standard a 1 := by
      funext a
      exact propext Template.fits_extremum.symm
    rw [Outline, either, relates_or, Relates, Relates, or_or_or_comm]
    simp [catalogue, relation, Template.fits_relation, Template.fits_wild (w := .varOrVal), Wildcard.Form,
      or_assoc]
  | membership =>
    simp [catalogue, relation, Outline, binary_or, Template.fits_node, Template.fits_wild, Wildcard.Form]
  | _ =>
    simp [catalogue, relation, Outline, Relates, Template.fits_relation, Template.fits_arithmetic,
      Template.fits_wild, Wildcard.Form]

theorem Compound.not_isSimple {shape : Shape} {a : Expr} (compound : shape.Compound a) : ¬ a.IsSimple := by
  intro simple
  cases shape <;> first
    | exact compound
    | exact not_binary_of_isSimple simple compound
    | exact not_variadic_of_isSimple simple compound

theorem not_membership_of_relates {side other : Expr → Prop} {e : Expr} (relates : Relates side other e) :
    ¬ membership.Outline e := by
  intro outline
  obtain ⟨op, a, b, rfl, relational⟩ := relates.root
  rcases outline.1 with rfl | rfl <;> cases relational

theorem not_logical_of_relates {side other : Expr → Prop} {e : Expr} (relates : Relates side other e) :
    ¬ logicalOfVariables.Outline e := by
  intro outline
  obtain ⟨op, a, b, rfl, relational⟩ := relates.root
  exact Operator.not_isLogical_of_isRelational relational outline.1

/-- A relation with an operand that is neither variable nor constant has that operand in every
    outline. -/
theorem outline_of_compound {form : Expr → Prop} {shape : Shape} {e : Expr}
    (relates : Relates form IsSimple e) (compound : ∀ a, form a → ¬ a.IsSimple) (outline : shape.Outline e) :
    Relates (fun a => form a ∧ shape.Compound a) IsSimple e := by
  have again : Relates shape.Compound IsSimple e → Relates (fun a => form a ∧ shape.Compound a) IsSimple e :=
    fun other => (relates.and other compound).mono (fun _ => id) (fun _ => And.left)
  cases shape with
  | unaryRelation =>
    have both := relates.and outline fun a holds constant => compound a holds (.inr constant)
    exact (both.elim fun a holds => compound a holds.1 (.inl holds.2)).elim
  | binaryRelation =>
    have both := relates.and outline fun a holds named => compound a holds (.inl named)
    exact (both.elim fun a holds => compound a holds.1 (.inl holds.2)).elim
  | membership => exact absurd outline (not_membership_of_relates relates)
  | logicalOfVariables => exact absurd outline (not_logical_of_relates relates)
  | arithmeticRelation | linearSum | sumOfProducts | extremum => exact again outline

theorem not_isArithmetic_of_isSumOfProducts {a : Expr} (products : a.IsSumOfProducts) :
    ¬ a.IsArithmetic := by
  intro form
  obtain ⟨_, x, _, rfl, _, named, _⟩ := binary_iff.mp form
  exact not_binary_of_isSimple (.inl named) (products.2.2 x List.mem_cons_self)

theorem isExtremum_three_iff {a : Expr} : a.IsExtremum 3 ↔ a.IsExtremum 2 ∧ ¬ a.IsArithmetic := by
  constructor
  · intro extreme
    cases a with
    | leaf l => exact extreme.elim
    | node op args =>
      obtain ⟨root, length, each⟩ := extreme
      refine ⟨⟨root, Nat.le_of_succ_le length, each⟩, ?_⟩
      intro form
      obtain ⟨_, _, _, same, _⟩ := binary_iff.mp form
      cases same
      exact absurd length (by simp)
  · rintro ⟨extreme, other⟩
    cases a with
    | leaf l => exact extreme.elim
    | node op args =>
      obtain ⟨root, length, each⟩ := extreme
      refine ⟨root, Nat.lt_of_le_of_ne length ?_, each⟩
      intro two
      obtain ⟨x, y, rfl⟩ := List.length_eq_two.mp two.symm
      have arithmetic : op.isArithmetic := by rcases root with rfl | rfl <;> rfl
      exact other ⟨arithmetic, each x (by simp), .inl (each y (by simp))⟩

theorem compound_unique {shape another : Shape} {a : Expr} (first : shape.Compound a)
    (second : another.Compound a) (other : ¬ a.IsArithmetic) : shape = another := by
  have sums : a.IsLinear → ¬ a.IsSumOfProducts := by
    intro linear products
    obtain ⟨_, term, _, _, form, product⟩ := variadic_meet linear products
    obtain ⟨_, v, w, rfl, rfl, named, last⟩ := binary_iff.mp product
    rcases form with form | ⟨_, _, constant⟩
    · exact form
    · exact not_isVariable_of_isConstant constant last
  have extremes {form : Expr → Prop} : a.Variadic (· = .add) 2 form → ¬ a.IsExtremum 2 := by
    intro sum extreme
    obtain ⟨_, _, rfl, root, _⟩ := variadic_meet sum extreme
    rcases root with root | root <;> cases root
  cases shape with
  | unaryRelation | binaryRelation | membership | logicalOfVariables => exact first.elim
  | arithmeticRelation => exact absurd first other
  | linearSum | sumOfProducts | extremum =>
    cases another with
    | unaryRelation | binaryRelation | membership | logicalOfVariables => exact second.elim
    | arithmeticRelation => exact absurd second other
    | linearSum | sumOfProducts | extremum =>
      first
      | rfl
      | exact absurd second (sums first)
      | exact absurd first (sums second)
      | exact absurd second (extremes first)
      | exact absurd first (extremes second)

theorem isSymmetric_of_compound {shape : Shape} {op : Operator} {args : List Expr}
    (compound : shape.Compound (.node op args)) (differ : shape ≠ arithmeticRelation) : op.isSymmetric := by
  cases shape with
  | unaryRelation | binaryRelation | membership | logicalOfVariables => exact compound.elim
  | arithmeticRelation => exact absurd rfl differ
  | linearSum | sumOfProducts =>
    obtain ⟨rfl, _⟩ := compound
    rfl
  | extremum =>
    obtain ⟨rfl | rfl, _⟩ := compound <;> rfl

theorem isTwofold_of_compound {shape : Shape} {a : Expr} (compound : shape.Compound a)
    (form : a.IsArithmetic) (differ : shape ≠ arithmeticRelation) : a.IsTwofold := by
  obtain ⟨op, x, y, rfl, _, named, simple⟩ := binary_iff.mp form
  have last : y ∈ [x, y] := by simp
  cases shape with
  | unaryRelation | binaryRelation | membership | logicalOfVariables => exact compound.elim
  | arithmeticRelation => exact absurd rfl differ
  | linearSum =>
    obtain ⟨rfl, _, each⟩ := compound
    refine ⟨.inl rfl, named, ?_⟩
    rcases each y last with other | weighted
    · exact other
    · exact absurd weighted (not_binary_of_isSimple simple)
  | sumOfProducts => exact absurd form (not_isArithmetic_of_isSumOfProducts compound)
  | extremum => exact ⟨.inr compound.1, named, compound.2.2 y last⟩

theorem isArithmetic_of_isTwofold {a : Expr} (twofold : a.IsTwofold) : a.IsArithmetic := by
  obtain ⟨op, x, y, rfl, root, first, last⟩ := binary_iff.mp twofold
  refine ⟨?_, first, .inl last⟩
  rcases root with rfl | rfl | rfl <;> rfl

theorem compound_of_isTwofold {a : Expr} (twofold : a.IsTwofold) : a.IsLinear ∨ a.IsExtremum 2 := by
  obtain ⟨op, x, y, rfl, root, first, last⟩ := binary_iff.mp twofold
  have each : ∀ arg ∈ [x, y], arg.IsVariable := by simp [first, last]
  rcases root with rfl | root
  · exact .inl ⟨rfl, Nat.le_refl 2, fun arg member => .inl (each arg member)⟩
  · exact .inr ⟨root, Nat.le_refl 2, each⟩

theorem outline_arithmetic_of_twofold {e : Expr} (twofold : Relates IsTwofold IsSimple e) :
    arithmeticRelation.Outline e :=
  twofold.mono (fun _ => isArithmetic_of_isTwofold) (fun _ => id)

theorem exists_outline_of_twofold {e : Expr} (twofold : Relates IsTwofold IsSimple e) :
    ∃ shape : Shape, shape ≠ arithmeticRelation ∧ shape.Outline e := by
  have either := twofold.mono (fun _ => compound_of_isTwofold) (fun _ => id)
  rcases relates_or.mp either with sum | extreme
  · exact ⟨linearSum, by decide, sum⟩
  · exact ⟨extremum, by decide, extreme⟩

theorem isTwofold_of_outlines {shape another : Shape} {e : Expr} (first : Relates shape.Compound IsSimple e)
    (second : another.Outline e) (differ : shape ≠ another) : Relates IsTwofold IsSimple e := by
  refine (outline_of_compound first (fun _ => Compound.not_isSimple) second).mono ?_ (fun _ => id)
  rintro a ⟨left, right⟩
  by_cases form : a.IsArithmetic
  · by_cases arithmetic : shape = arithmeticRelation
    · exact isTwofold_of_compound right form (fun same => differ (arithmetic.trans same.symm))
    · exact isTwofold_of_compound left form arithmetic
  · exact absurd (compound_unique left right form) differ

theorem Outline.cases {shape : Shape} {e : Expr} (outline : shape.Outline e) :
    Relates shape.Compound IsSimple e ∨ shape = unaryRelation ∨ shape = binaryRelation ∨
      shape = membership ∨ shape = logicalOfVariables := by
  cases shape with
  | arithmeticRelation | linearSum | sumOfProducts | extremum => exact .inl outline
  | _ => simp

theorem not_logical_of_membership {e : Expr} (outline : membership.Outline e) :
    ¬ logicalOfVariables.Outline e := by
  intro logical
  obtain ⟨op, a, b, rfl, root, _⟩ := binary_iff.mp outline
  rcases root with rfl | rfl <;> cases logical.1

theorem not_binary_of_unary {e : Expr} (outline : unaryRelation.Outline e) : ¬ binaryRelation.Outline e := by
  intro binary
  have both := outline.symm.and binary fun _ => not_isVariable_of_isConstant
  exact both.elim fun _ form => not_isVariable_of_isConstant form.1 form.2

theorem outline_unique {shape another : Shape} {e : Expr} (first : shape.Outline e)
    (second : another.Outline e) (single : ¬ Relates IsTwofold IsSimple e) : shape = another := by
  by_contra differ
  rcases first.cases with compound | plain
  · exact single (isTwofold_of_outlines compound second differ)
  rcases second.cases with compound | other
  · exact single (isTwofold_of_outlines compound first (Ne.symm differ))
  have logical := not_logical_of_membership (e := e)
  have binary := not_binary_of_unary (e := e)
  have unaryRoot : unaryRelation.Outline e → ¬ membership.Outline e ∧ ¬ logicalOfVariables.Outline e :=
    fun outline => ⟨not_membership_of_relates outline, not_logical_of_relates outline⟩
  have binaryRoot : binaryRelation.Outline e → ¬ membership.Outline e ∧ ¬ logicalOfVariables.Outline e :=
    fun outline => ⟨not_membership_of_relates outline, not_logical_of_relates outline⟩
  rcases plain with rfl | rfl | rfl | rfl <;> rcases other with rfl | rfl | rfl | rfl <;> tauto

end Shape

end Intension
