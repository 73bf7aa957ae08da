import Intension.Proofs.Expr.Relabelled
import Intension.Proofs.Shape.Grammar

namespace Intension

/-- The leaf with another variable in the place of a variable. -/
def Leaf.withVariables (f : Variable → Variable) : Leaf → Leaf
  | .var v => .var (f v)
  | l => l

def Expr.withVariables (f : Variable → Variable) (e : Expr) : Expr := e.mapLeaves (Leaf.withVariables f)

namespace Expr

theorem isVariable_iff_rank {e : Expr} : e.IsVariable ↔ e.rank = 0 := by
  rcases e with (_ | _ | _ | _) | _ <;> simp [IsVariable, rank, Leaf.rank]

theorem isConstant_iff_rank {e : Expr} : e.IsConstant ↔ e.rank = 3 := by
  rcases e with (_ | _ | _ | _) | _ <;> simp [IsConstant, rank, Leaf.rank]

theorem rank_of_variadic {operator : Operator → Prop} {operand : Expr → Prop} {least : Nat} {e : Expr}
    (holds : e.Variadic operator least operand) : e.rank = 2 := by
  cases e with
  | leaf l => exact holds.elim
  | node op args => rfl

variable {side other : Expr → Prop}

/-- A form that a canonical expression has with other leaves exactly if it has it with its own. -/
def Kept (f : Leaf → Leaf) (form : Expr → Prop) : Prop :=
  ∀ e, Normal e → (form (e.relabelled f) ↔ form e)

section Kept

variable {f : Leaf → Leaf} (constants : ∀ k, f (.const k) = .const k)
  (ranks : ∀ l, (f l).rank = l.rank) {operator : Operator → Prop} {first second operand : Expr → Prop}

theorem Kept.or (left : Kept f first) (right : Kept f second) : Kept f (fun e => first e ∨ second e) :=
  fun e normal => or_congr (left e normal) (right e normal)

theorem Kept.except (left : Kept f first) (right : Kept f second) :
    Kept f (fun e => first e ∧ ¬ second e) :=
  fun e normal => and_congr (left e normal) (not_congr (right e normal))

include constants ranks

theorem kept_of_rank (form : ∀ {a b : Expr}, a.rank = b.rank → (first a ↔ first b)) : Kept f first :=
  fun _ normal => form (rank_relabelled constants ranks normal)

theorem kept_isVariable : Kept f IsVariable :=
  kept_of_rank constants ranks fun same => by rw [isVariable_iff_rank, isVariable_iff_rank, same]

theorem kept_isConstant : Kept f IsConstant :=
  kept_of_rank constants ranks fun same => by rw [isConstant_iff_rank, isConstant_iff_rank, same]

theorem kept_isSimple : Kept f IsSimple :=
  (kept_isVariable constants ranks).or (kept_isConstant constants ranks)

theorem kept_variadic {least : Nat} (each : Kept f operand) : Kept f (Variadic operator least operand) := by
  intro e normal
  cases e with
  | leaf l => rfl
  | node op args =>
    have below := (normal_node.mp normal).2
    have perm := ordered_perm op (args.map (relabelled f))
    rw [(relabelled_eq_node constants ranks normal).mpr ⟨args, rfl, rfl⟩]
    simp only [Variadic, perm.length_eq, List.length_map, perm.mem_iff, List.forall_mem_map]
    refine and_congr_right fun _ => and_congr_right fun _ => ?_
    exact forall₂_congr fun arg member => each arg (below arg member)

/-- What is kept of two operands, in their order or in the other one, is kept of every expression. -/
theorem kept_of_pairs {form : Expr → Prop} (shaped : ∀ e, form e → ∃ op a b, e = .node op [a, b])
    (straight : ∀ op a b, Normal a → Normal b →
      (form (.node op [a.relabelled f, b.relabelled f]) ↔ form (.node op [a, b])))
    (turned : ∀ op a b, Normal a → Normal b → a.rank = b.rank →
      (form (.node op [b.relabelled f, a.relabelled f]) ↔ form (.node op [a, b]))) : Kept f form := by
  have pairs (op : Operator) (a b : Expr) (normal : Normal (.node op [a, b])) :
      form ((Expr.node op [a, b]).relabelled f) ↔ form (.node op [a, b]) := by
    have below := (normal_node.mp normal).2
    have former : Normal a := below a (by simp)
    have latter : Normal b := below b (by simp)
    rcases relabelled_pair constants ranks normal with same | ⟨same, equal⟩
    · rw [same]
      exact straight op a b former latter
    · rw [same]
      exact turned op a b former latter equal
  intro e normal
  constructor
  · intro holds
    obtain ⟨op, a, b, same⟩ := shaped _ holds
    obtain ⟨args, rfl, listed⟩ := (relabelled_eq_node constants ranks normal).mp same
    have length := (ordered_perm op (args.map (relabelled f))).length_eq
    rw [← listed, List.length_map] at length
    obtain ⟨x, y, rfl⟩ := List.length_eq_two.mp length.symm
    exact (pairs op x y normal).mp holds
  · intro holds
    obtain ⟨op, a, b, rfl⟩ := shaped e holds
    exact (pairs op a b normal).mpr holds

theorem kept_binary (left : Kept f first) (right : Kept f second)
    (even : ∀ {a b : Expr}, a.rank = b.rank → first a → second b → first b ∧ second a) :
    Kept f (Binary operator first second) := by
  refine kept_of_pairs constants ranks ?_ ?_ ?_
  · intro e holds
    obtain ⟨op, a, b, rfl, _⟩ := binary_iff.mp holds
    exact ⟨op, a, b, rfl⟩
  · intro op a b former latter
    exact and_congr_right fun _ => and_congr (left a former) (right b latter)
  · intro op a b former latter equal
    refine and_congr_right fun _ => ?_
    rw [left b latter, right a former]
    exact ⟨and_imp.mpr (even equal.symm), and_imp.mpr (even equal)⟩

theorem kept_relates (left : Kept f side) (right : Kept f other) : Kept f (Relates side other) := by
  refine kept_of_pairs constants ranks ?_ ?_ ?_
  · intro e relates
    obtain ⟨op, a, b, rfl, _⟩ := relates.root
    exact ⟨op, a, b, rfl⟩
  · intro op a b former latter
    rw [relates_pair, relates_pair, left a former, left b latter, right a former, right b latter]
  · intro op a b former latter _
    rw [relates_pair, relates_pair, left a former, left b latter, right a former, right b latter]
    tauto

theorem kept_isArithmetic : Kept f IsArithmetic := by
  refine kept_binary constants ranks (kept_isVariable constants ranks) (kept_isSimple constants ranks) ?_
  intro a b equal
  simp only [IsSimple, isVariable_iff_rank, isConstant_iff_rank]
  omega

theorem kept_isLinear : Kept f IsLinear := by
  have named := kept_isVariable constants ranks
  refine kept_variadic constants ranks (named.or ?_)
  refine kept_binary constants ranks named (kept_isConstant constants ranks) ?_
  intro a b equal
  simp only [isVariable_iff_rank, isConstant_iff_rank]
  omega

theorem kept_isSumOfProducts : Kept f IsSumOfProducts := by
  have named := kept_isVariable constants ranks
  refine kept_variadic constants ranks (kept_binary constants ranks named named ?_)
  exact fun _ former latter => ⟨latter, former⟩

theorem kept_covers (shape : Shape) : Kept f shape.Covers := by
  have named := kept_isVariable constants ranks
  have constant := kept_isConstant constants ranks
  have simple := kept_isSimple constants ranks
  have arithmetic := kept_isArithmetic constants ranks
  cases shape with
  | unaryRelation => exact kept_relates constants ranks named constant
  | binaryRelation => exact kept_relates constants ranks named named
  | arithmeticRelation => exact kept_relates constants ranks arithmetic simple
  | membership =>
    refine kept_binary constants ranks named (kept_variadic constants ranks constant) ?_
    -- A variable and a set are not of one rank.
    intro a b equal tested set
    have zero := isVariable_iff_rank.mp tested
    have two := rank_of_variadic set
    omega
  | logicalOfVariables => exact kept_variadic constants ranks named
  | linearSum => exact kept_relates constants ranks ((kept_isLinear constants ranks).except arithmetic) simple
  | sumOfProducts => exact kept_relates constants ranks (kept_isSumOfProducts constants ranks) simple
  | extremum => exact kept_relates constants ranks (kept_variadic constants ranks named) simple

theorem shape?_relabelled {e : Expr} (normal : Normal e) : (e.relabelled f).shape? = e.shape? := by
  apply Option.ext
  intro shape
  rw [shape?_eq_some_iff, shape?_eq_some_iff]
  exact kept_covers constants ranks shape e normal

end Kept

/-- The shape of a canonical form is that of the expression with any other variables, which need not
    be different from each other. -/
theorem shape?_canonical_withVariables {e : Expr} (sized : e.Sized) (f : Variable → Variable) :
    (e.withVariables f).canonical.shape? = e.canonical.shape? := by
  have constants (k : Word) : (Leaf.const k).withVariables f = .const k := rfl
  have ranks (l : Leaf) : (l.withVariables f).rank = l.rank := by cases l <;> rfl
  calc (e.withVariables f).canonical.shape?
    _ = (e.canonical.relabelled (Leaf.withVariables f)).shape? :=
      congrArg shape? (canonical_mapLeaves constants sized).symm
    _ = e.canonical.shape? := shape?_relabelled constants ranks (normal_canonical e)

/-- Not (3 * y + x > z) for three variables. -/
def negatedSum : Expr :=
  .node .not [.node .gt [.node .add [.node .mul [.leaf (.const 3), .leaf (.var ⟨1, "y"⟩)],
    .leaf (.var ⟨0, "x"⟩)], .leaf (.var ⟨2, "z"⟩)]]

/-- Two of the variables become one that comes after the third. -/
theorem shape?_canonical_withVariables_negatedSum :
    negatedSum.Sized ∧
      (negatedSum.withVariables fun v => if v.id < 2 then ⟨7, "x"⟩ else v).canonical.shape? =
        negatedSum.canonical.shape? ∧
      negatedSum.canonical.shape? = some .linearSum := by
  have sized : negatedSum.Sized := by
    simp [negatedSum, sized_node, Operator.arity, Arity.accepts]
  have bounded : negatedSum.canonical = .node .le [.node .add (sorted [
      .node .mul (sorted [.leaf (.const 3), .leaf (.var ⟨1, "y"⟩)]), .leaf (.var ⟨0, "x"⟩)]),
        .leaf (.var ⟨2, "z"⟩)] := rfl
  have shape : negatedSum.canonical.shape? = some .linearSum := by
    rw [bounded, sorted_pair, sorted_pair]
    rfl
  exact ⟨sized, shape?_canonical_withVariables sized _, shape⟩

/-- A relation stays a relation in canonical form, its operands possibly the other way round. -/
theorem arranged_relation {op : Operator} (relational : op.isRelational) (a b : Expr) :
    ∃ kept : Operator, kept.isRelational ∧
      (arranged op [a, b] = .node kept [a, b] ∨ arranged op [a, b] = .node kept [b, a]) := by
  by_cases greater : op = .gt ∨ op = .ge
  · rcases greater with rfl | rfl
    · exact ⟨.lt, rfl, .inr rfl⟩
    · exact ⟨.le, rfl, .inr rfl⟩
  · rw [arranged_of_oriented fun inverted => absurd inverted greater]
    rcases ordered_pair op a b with ⟨kept, _⟩ | ⟨swapped, _⟩
    · exact ⟨op, relational, .inl (congrArg _ kept)⟩
    · exact ⟨op, relational, .inr (congrArg _ swapped)⟩

theorem canonical_relation {op : Operator} (relational : op.isRelational) (a b : Expr) :
    (Expr.node op [a, b]).canonical = arranged op [a.canonical, b.canonical] := by
  rw [canonical, canonicalList_eq_map, List.map_cons, List.map_cons, List.map_nil]
  cases op <;> first | rfl | cases relational

theorem relates_canonical {op : Operator} (relational : op.isRelational) {a b : Expr} :
    Relates side other (Expr.node op [a, b]).canonical ↔
      side a.canonical ∧ other b.canonical ∨ other a.canonical ∧ side b.canonical := by
  rw [canonical_relation relational]
  obtain ⟨kept, root, same | same⟩ := arranged_relation relational a.canonical b.canonical
  · rw [same, relates_pair, and_iff_right root]
  · rw [same, relates_pair, and_iff_right root, or_comm, and_comm, and_comm (a := side b.canonical)]

theorem canonical_of_isSimple {e : Expr} (simple : e.IsSimple) : e.canonical = e := by
  cases e with
  | leaf l => rfl
  | node op args => exact absurd simple not_isSimple_node

theorem simplified?_pair (op : Operator) (a b : Expr) : simplified? op [a, b] = none :=
  simplified?_eq_none_iff.mpr (by simp)

theorem canonical_arithmetic {op : Operator} (arithmetic : op.isArithmetic) {a b : Expr} (first : a.IsSimple)
    (second : b.IsSimple) : (Expr.node op [a, b]).canonical = .node op (ordered op [a, b]) := by
  rw [canonical, canonicalList_eq_map, List.map_cons, List.map_cons, List.map_nil,
    canonical_of_isSimple first, canonical_of_isSimple second]
  refine settled_of_rigid (simplified?_pair op a b) ?_ ?_
  · intro _ operands member
    rcases List.mem_pair.mp member with rfl | rfl
    · exact not_isSimple_node first
    · exact not_isSimple_node second
  · rintro (rfl | rfl) <;> cases arithmetic

/-- Sorting puts a variable in front of a constant, where the operator lets it. -/
theorem isArithmetic_canonical {op : Operator} (arithmetic : op.isArithmetic) {a b : Expr}
    (first : a.IsSimple) (second : b.IsSimple) (named : a.IsVariable ∨ b.IsVariable) :
    (Expr.node op [a, b]).canonical.IsArithmetic ↔ op.isSymmetric ∨ a.IsVariable := by
  rw [canonical_arithmetic arithmetic first second]
  rw [isVariable_iff_rank, isVariable_iff_rank] at named
  rcases ordered_pair op a b with ⟨kept, ascending⟩ | ⟨swapped, symmetric, descending⟩
  · have forward : op.isSymmetric → a.IsVariable := by
      intro symmetric
      have below := ascending symmetric
      rw [isVariable_iff_rank]
      omega
    rw [kept]
    exact ⟨fun form => .inr form.2.1, fun either => ⟨arithmetic, either.elim forward id, second⟩⟩
  · have leading : b.IsVariable := by
      rw [isVariable_iff_rank]
      omega
    rw [swapped]
    exact ⟨fun _ => .inl symmetric, fun _ => ⟨arithmetic, leading, first⟩⟩

/-- A term that is not sorted and does not have its variable in front is in no shape. -/
theorem shape?_of_unsorted {op : Operator} {args : List Expr} {e : Expr}
    (relates : Relates (· = .node op args) IsSimple e) (rigid : ¬ op.isSymmetric)
    (other : ¬ (Expr.node op args).IsArithmetic) : e.shape? = none := by
  have compound : ∀ a : Expr, a = .node op args → ¬ a.IsSimple := by
    rintro _ rfl
    exact not_isSimple_node
  rw [Option.eq_none_iff_forall_ne_some]
  intro shape found
  have outline := (Shape.covers_iff.mp (shape?_eq_some_iff.mp found)).1
  refine (Shape.outline_of_compound relates compound outline).elim ?_
  rintro _ ⟨rfl, form⟩
  refine rigid (Shape.isSymmetric_of_compound form ?_)
  rintro rfl
  exact other form

/-- A relation between an arithmetic term over a variable and a variable or constant is recognized on
    both sides as long as the term is sorted or has a variable in front. -/
theorem shape?_canonical_arithmetic {relation op : Operator} {a b c : Expr}
    (relational : relation.isRelational) (arithmetic : op.isArithmetic) (first : a.IsSimple)
    (second : b.IsSimple) (named : a.IsVariable ∨ b.IsVariable) (third : c.IsSimple) :
    (Expr.node relation [.node op [a, b], c]).canonical.shape? =
        (if op.isSymmetric ∨ a.isVar then some .arithmeticRelation else none) ∧
      (Expr.node relation [c, .node op [a, b]]).canonical.shape? =
        (if op.isSymmetric ∨ a.isVar then some .arithmeticRelation else none) := by
  have form := isArithmetic_canonical arithmetic first second named
  rw [← isVar_iff] at form
  have term := canonical_arithmetic arithmetic first second
  have plain : c.canonical.IsSimple := by rwa [canonical_of_isSimple third]
  have recognized (e : Expr) (relates : Relates (· = (Expr.node op [a, b]).canonical) IsSimple e) :
      e.shape? = if op.isSymmetric ∨ a.isVar then some .arithmeticRelation else none := by
    split
    · rename_i either
      refine shape?_of_arithmetic (relates.mono ?_ fun _ => id)
      rintro _ rfl
      exact form.mpr either
    · rename_i neither
      rw [term] at relates form
      exact shape?_of_unsorted relates (fun symmetric => neither (.inl symmetric)) (mt form.mp neither)
  constructor
  · exact recognized _ ((relates_canonical relational).mpr (.inl ⟨rfl, plain⟩))
  · exact recognized _ ((relates_canonical relational).mpr (.inr ⟨plain, rfl⟩))

/-- The distance of a constant and a variable, which is sorted. -/
theorem shape?_canonical_arithmetic_distance :
    Operator.lt.isRelational ∧ Operator.dist.isArithmetic ∧
      (Expr.node .lt [.node .dist [.leaf (.const 3), .leaf (.var ⟨0, "x"⟩)],
        .leaf (.const 8)]).canonical.shape? = some .arithmeticRelation ∧
      (Expr.node .lt [.leaf (.const 8),
        .node .dist [.leaf (.const 3), .leaf (.var ⟨0, "x"⟩)]]).canonical.shape? =
          some .arithmeticRelation :=
  ⟨rfl, rfl, shape?_canonical_arithmetic rfl rfl (.inr trivial) (.inl trivial) (.inr trivial)
    (.inr trivial)⟩

/-- The equation y = 3 - x. -/
def reversedDifference : Expr :=
  .node .eq [.leaf (.var ⟨1, "y"⟩), .node .sub [.leaf (.const 3), .leaf (.var ⟨0, "x"⟩)]]

theorem shape?_canonical_reversedDifference :
    Operator.eq.isRelational ∧ Operator.sub.isArithmetic ∧
      (Expr.leaf (.var ⟨0, "x"⟩)).IsVariable ∧ (Expr.leaf (.const 3)).IsConstant ∧
      reversedDifference.canonical = reversedDifference ∧ reversedDifference.shape? = none ∧
      reversedDifference.canonical.shape? ≠ some .arithmeticRelation := by
  have same : reversedDifference.canonical = reversedDifference := by
    have rewritten : reversedDifference.canonical = .node .eq (sorted [.leaf (.var ⟨1, "y"⟩),
      .node .sub [.leaf (.const 3), .leaf (.var ⟨0, "x"⟩)]]) := rfl
    rw [rewritten, sorted_pair]
    rfl
  have unknown : reversedDifference.shape? = none := by decide
  refine ⟨rfl, rfl, trivial, trivial, same, unknown, ?_⟩
  rw [same, unknown]
  rintro ⟨⟩

end Expr

end Intension
