import Intension.Proofs.Shape.Outline

namespace Intension

namespace Shape

open Intension.Expr

/-- The expressions of a shape. -/
def Covers : Shape → Expr → Prop
  | unaryRelation => Relates IsVariable IsConstant
  | binaryRelation => Relates IsVariable IsVariable
  | arithmeticRelation => Relates IsArithmetic IsSimple
  | membership => Binary (fun op => op = .mem ∨ op = .notMem) IsVariable (Variadic (· = .set) 0 IsConstant)
  | logicalOfVariables => Variadic (·.isLogical) 2 IsVariable
  | linearSum => Relates (fun side => side.IsLinear ∧ ¬ side.IsArithmetic) IsSimple
  | sumOfProducts => Relates IsSumOfProducts IsSimple
  | extremum => Relates (IsExtremum 3) IsSimple

theorem relates_except {side : Expr → Prop} (compound : ∀ a, side a → ¬ a.IsSimple) {e : Expr} :
    Relates (fun a => side a ∧ ¬ a.IsArithmetic) IsSimple e ↔
      Relates side IsSimple e ∧ ¬ Relates IsArithmetic IsSimple e := by
  constructor
  · intro relates
    refine ⟨relates.mono (fun _ => And.left) (fun _ => id), ?_⟩
    intro again
    exact (relates.and again fun a form => compound a form.1).elim fun a forms => forms.1.2 forms.2
  · rintro ⟨relates, none⟩
    obtain ⟨op, a, b, rfl, relational⟩ := relates.root
    simp only [relates_pair] at relates none ⊢
    tauto

theorem covers_iff {shape : Shape} {e : Expr} :
    shape.Covers e ↔ shape.Outline e ∧ (shape = arithmeticRelation ∨ ¬ arithmeticRelation.Outline e) := by
  have plain (outline : shape.Outline e) (other : ∀ a, ¬ (a.IsArithmetic ∧ shape.Compound a)) :
      ¬ arithmeticRelation.Outline e := fun arithmetic =>
    (outline_of_compound arithmetic (fun _ => not_isSimple_of_isArithmetic) outline).elim other
  cases shape with
  | arithmeticRelation => exact (and_iff_left (.inl rfl)).symm
  | unaryRelation | binaryRelation | membership | logicalOfVariables =>
    exact ⟨fun outline => ⟨outline, .inr (plain outline fun _ => And.right)⟩, And.left⟩
  | sumOfProducts =>
    have other (a : Expr) (forms : a.IsArithmetic ∧ a.IsSumOfProducts) : False :=
      not_isArithmetic_of_isSumOfProducts forms.2 forms.1
    exact ⟨fun outline => ⟨outline, .inr (plain outline other)⟩, And.left⟩
  | linearSum =>
    have compound (a : Expr) (form : linearSum.Compound a) : ¬ a.IsSimple := form.not_isSimple
    simp only [reduceCtorEq, false_or]
    exact relates_except compound
  | extremum =>
    have compound (a : Expr) (form : extremum.Compound a) : ¬ a.IsSimple := form.not_isSimple
    have larger : IsExtremum 3 = fun a => a.IsExtremum 2 ∧ ¬ a.IsArithmetic := by
      funext a
      exact propext isExtremum_three_iff
    simp only [Covers, larger, reduceCtorEq, false_or]
    exact relates_except compound

end Shape

namespace Expr

/-- The shape of the first template that an expression fits, among templates in some order. -/
def shapeAmong? (entries : List (Shape × Template)) (e : Expr) : Option Shape :=
  (entries.find? (fun entry => entry.2.fits .standard e 0)).map Prod.fst

theorem shapeAmong?_append (entries others : List (Shape × Template)) (e : Expr) :
    e.shapeAmong? (entries ++ others) = (e.shapeAmong? entries).or (e.shapeAmong? others) := by
  rw [shapeAmong?, List.find?_append, Option.map_or, shapeAmong?, shapeAmong?]

theorem shapeAmong?_eq_none {entries : List (Shape × Template)} {e : Expr} :
    e.shapeAmong? entries = none ↔ ∀ entry ∈ entries, ¬ entry.2.fits .standard e 0 := by
  rw [shapeAmong?, Option.map_eq_none_iff, List.find?_eq_none]

/-- Where only templates of one shape fit, their order does not matter. -/
theorem shapeAmong?_eq_some {entries : List (Shape × Template)} {e : Expr} {shape : Shape}
    (only : ∀ entry ∈ entries, entry.2.fits .standard e 0 → entry.1 = shape)
    (found : ∃ entry ∈ entries, entry.2.fits .standard e 0) : e.shapeAmong? entries = some shape := by
  obtain ⟨entry, first⟩ := Option.isSome_iff_exists.mp (List.find?_isSome.mpr found)
  have fits := List.find?_some first
  rw [shapeAmong?, first, Option.map_some, only entry (List.mem_of_find?_eq_some first) fits]

theorem outline_of_shapeAmong? {entries : List (Shape × Template)} {e : Expr} {shape : Shape}
    (catalogued : ∀ entry ∈ entries, entry ∈ Shape.catalogue) (found : e.shapeAmong? entries = some shape) :
    shape.Outline e := by
  obtain ⟨entry, first, rfl⟩ := Option.map_eq_some_iff.mp found
  have fits := List.find?_some first
  exact Shape.outline_iff.mpr ⟨entry.2, catalogued entry (List.mem_of_find?_eq_some first), fits⟩

theorem shapeAmong?_catalogue (e : Expr) : e.shapeAmong? Shape.catalogue = e.shape? := rfl

/-- The templates in front of those of arithmetic relations fit none of them. -/
theorem shape?_of_arithmetic {e : Expr} (outline : Shape.arithmeticRelation.Outline e) :
    e.shape? = some .arithmeticRelation := by
  have plain : ∀ entry ∈ Shape.catalogue.take 3, entry.1.Compound = fun _ => False := by
    simp [Shape.catalogue, Shape.relation, Shape.Compound]
  have skipped : e.shapeAmong? (Shape.catalogue.take 3) = none := by
    rw [shapeAmong?_eq_none]
    intro entry member fits
    have other := Shape.outline_iff.mpr ⟨entry.2, List.mem_of_mem_take member, fits⟩
    refine (Shape.outline_of_compound outline (fun _ => not_isSimple_of_isArithmetic) other).elim ?_
    rw [plain entry member]
    exact fun _ => And.right
  have found : e.shapeAmong? (Shape.relation .arithmeticRelation
      [.special [Template.wild .var, Template.wild .varOrVal]] (Template.wild .varOrVal)) =
        some .arithmeticRelation := by
    obtain ⟨template, member, fits⟩ := Shape.outline_iff.mp outline
    apply shapeAmong?_eq_some
    · simp [Shape.relation]
    · refine ⟨(.arithmeticRelation, template), ?_, fits⟩
      simpa [Shape.catalogue, Shape.relation] using member
  have split : Shape.catalogue = Shape.catalogue.take 3 ++ (Shape.relation .arithmeticRelation
      [.special [Template.wild .var, Template.wild .varOrVal]] (Template.wild .varOrVal) ++
        Shape.catalogue.drop 5) := rfl
  rw [← shapeAmong?_catalogue, split, shapeAmong?_append, shapeAmong?_append, skipped, found,
    Option.none_or, Option.some_or]

theorem shape?_eq_some_iff {e : Expr} {shape : Shape} : e.shape? = some shape ↔ shape.Covers e := by
  rw [Shape.covers_iff]
  by_cases arithmetic : Shape.arithmeticRelation.Outline e
  · rw [shape?_of_arithmetic arithmetic]
    constructor
    · rintro ⟨⟩
      exact ⟨arithmetic, .inl rfl⟩
    · rintro ⟨_, rfl | other⟩
      · rfl
      · exact absurd arithmetic other
  · constructor
    · intro found
      exact ⟨outline_of_shapeAmong? (fun _ => id) found, .inr arithmetic⟩
    · rintro ⟨outline, _⟩
      obtain ⟨template, member, fits⟩ := Shape.outline_iff.mp outline
      refine shapeAmong?_eq_some ?_ ⟨_, member, fits⟩
      intro entry inside again
      exact Shape.outline_unique (Shape.outline_iff.mpr ⟨entry.2, inside, again⟩) outline
        fun twofold => arithmetic (Shape.outline_arithmetic_of_twofold twofold)

theorem shapeAmong?_of_perm {entries : List (Shape × Template)} (perm : entries.Perm Shape.catalogue)
    {e : Expr} (single : ¬ Relates IsTwofold IsSimple e) : e.shapeAmong? entries = e.shape? := by
  cases found : e.shape? with
  | none =>
    rw [← shapeAmong?_catalogue, shapeAmong?_eq_none] at found
    exact shapeAmong?_eq_none.mpr fun entry member => found entry (perm.mem_iff.mp member)
  | some shape =>
    have outline := (Shape.covers_iff.mp (shape?_eq_some_iff.mp found)).1
    obtain ⟨template, member, fits⟩ := Shape.outline_iff.mp outline
    refine shapeAmong?_eq_some ?_ ⟨_, perm.mem_iff.mpr member, fits⟩
    intro entry inside again
    exact Shape.outline_unique (Shape.outline_iff.mpr ⟨entry.2, perm.mem_iff.mp inside, again⟩) outline
      single

/-- A sum or an extremum of two variables also fits a template behind those of arithmetic relations. -/
theorem exists_perm_of_twofold {e : Expr} (twofold : Relates IsTwofold IsSimple e) :
    ∃ entries : List (Shape × Template), entries.Perm Shape.catalogue ∧ e.shapeAmong? entries ≠ e.shape? := by
  obtain ⟨shape, other, outline⟩ := Shape.exists_outline_of_twofold twofold
  obtain ⟨template, member, fits⟩ := Shape.outline_iff.mp outline
  obtain ⟨before, after, split⟩ := List.append_of_mem member
  refine ⟨(shape, template) :: (before ++ after), split ▸ List.perm_middle.symm, ?_⟩
  have first : e.shapeAmong? ((shape, template) :: (before ++ after)) = some shape := by
    simp [shapeAmong?, fits]
  rw [first, shape?_of_arithmetic (Shape.outline_arithmetic_of_twofold twofold)]
  exact fun same => other (Option.some.inj same)

/-- The grammar of shapes says what the templates recognize, in whatever order they are tried unless
    there is a sum or an extremum of two variables. -/
theorem shape?_recognizes (e : Expr) :
    (∀ shape : Shape, e.shape? = some shape ↔ shape.Covers e) ∧
      (e.shape? = none ↔ ∀ shape : Shape, ¬ shape.Covers e) ∧
      (∀ shape another : Shape, shape.Covers e → another.Covers e → shape = another) ∧
      ((∀ entries : List (Shape × Template), entries.Perm Shape.catalogue →
          e.shapeAmong? entries = e.shape?) ↔ ¬ Relates IsTwofold IsSimple e) := by
  refine ⟨fun shape => shape?_eq_some_iff, ?_, ?_, ?_, ?_⟩
  · simp only [Option.eq_none_iff_forall_ne_some, ne_eq, shape?_eq_some_iff]
  · intro shape another first second
    exact Option.some.inj ((shape?_eq_some_iff.mpr first).symm.trans (shape?_eq_some_iff.mpr second))
  · intro anyOrder twofold
    obtain ⟨entries, perm, differ⟩ := exists_perm_of_twofold twofold
    exact differ (anyOrder entries perm)
  · intro single entries perm
    exact shapeAmong?_of_perm perm single

end Expr

end Intension
