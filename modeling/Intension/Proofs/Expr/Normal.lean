import Intension.Proofs.Expr.Order
import Intension.Proofs.Expr.WellFormed

namespace Intension

theorem Word.ofInt?_neg_eq_none_iff {k : Word} : Word.ofInt? (-k.toInt) = none ↔ k = Int64.minValue := by
  have least := k.minValue_le_toInt
  have most := k.toInt_le
  rw [Int64.toInt_minValue] at least
  rw [Int64.toInt_maxValue] at most
  rw [Word.ofInt?_eq_none_iff, ← Int64.toInt_inj, Int64.toInt_minValue]
  omega

theorem Operator.not_associative_of_negation? {test opposite : Operator}
    (found : test.negation? = some opposite) : ¬ opposite.isAssociative := by
  cases test <;> cases found <;> decide

namespace Expr

/-- The operators on operands that no rule of canonical form changes. -/
structure Unchanged (op : Operator) (args : List Expr) : Prop where
  flat : op.isAssociative → ∀ operands, .node op operands ∉ args
  oriented : op = .gt ∨ op = .ge → args.length ≠ 2
  negation : op = .not → ∀ inner operands, args = [.node inner operands] →
    (inner = .not → operands = []) ∧ (inner.negation?.isSome → operands.length ≠ 2)
  distance : op = .abs → ∀ operands, args ≠ [.node .sub operands]
  opposite : op = .neg → ∀ k, args = [.leaf (.const k)] → k = Int64.minValue
  ascending : op.isSymmetric → Ascending args

def Normal : Expr → Prop := Everywhere Unchanged

theorem normal_node {op : Operator} {args : List Expr} :
    Normal (.node op args) ↔ Unchanged op args ∧ ∀ arg ∈ args, Normal arg := everywhere_node

theorem simplified?_negation {inner : Operator} {operands : List Expr} :
    simplified? .not [.node inner operands] = none ↔
      (inner = .not → operands = []) ∧ (inner.negation?.isSome → operands.length ≠ 2) := by
  by_cases double : inner = .not
  · subst double
    simp [simplified?, Operator.negation?]
  · by_cases pair : operands.length = 2
    · obtain ⟨a, b, rfl⟩ := List.length_eq_two.mp pair
      cases found : inner.negation? <;> cases inner <;> simp_all [simplified?, Operator.negation?]
    · have other : simplified? .not [.node inner operands] = none := by
        unfold simplified?
        split <;> simp_all
      simp [other, double, pair]

theorem simplified?_eq_none_iff {op : Operator} {args : List Expr} :
    simplified? op args = none ↔
      (op = .not → ∀ inner operands, args = [.node inner operands] →
        (inner = .not → operands = []) ∧ (inner.negation?.isSome → operands.length ≠ 2)) ∧
      (op = .abs → ∀ operands, args ≠ [.node .sub operands]) ∧
      (op = .neg → ∀ k, args = [.leaf (.const k)] → k = Int64.minValue) := by
  cases op with
  | not =>
    rcases args with _ | ⟨_ | ⟨inner, operands⟩, _ | ⟨b, rest⟩⟩
    · simp [simplified?]
    · simp [simplified?]
    · simp [simplified?]
    · rw [simplified?_negation]
      simp
    · simp [simplified?]
  | abs =>
    unfold simplified?
    split <;> simp_all
  | neg =>
    unfold simplified?
    split <;> simp_all [Word.ofInt?_neg_eq_none_iff]
  | _ => simp [simplified?]

theorem mem_merged {op : Operator} {args : List Expr} {e : Expr} (member : e ∈ merged op args) :
    e ∈ args ∨ ∃ operands, .node op operands ∈ args ∧ e ∈ operands := by
  unfold merged at member
  split at member
  · obtain ⟨arg, inside, below⟩ := List.mem_flatMap.mp member
    cases arg with
    | leaf l =>
      rw [List.mem_singleton.mp below]
      exact .inl inside
    | node f operands =>
      simp only [splice] at below
      split at below
      · rename_i same
        subst same
        exact .inr ⟨operands, inside, below⟩
      · rw [List.mem_singleton.mp below]
        exact .inl inside
  · exact .inl member

theorem merged_of_flat {op : Operator} {args : List Expr}
    (flat : op.isAssociative → ∀ operands, .node op operands ∉ args) : merged op args = args := by
  unfold merged
  split
  · rename_i associative
    have single : ∀ arg ∈ args, splice op arg = [arg] := by
      intro arg member
      cases arg with
      | leaf l => rfl
      | node f operands =>
        rw [splice, if_neg]
        rintro rfl
        exact flat associative operands member
    rw [List.flatMap_congr single, List.flatMap_singleton']
  · rfl

theorem flat_merged {op : Operator} {args : List Expr} (each : ∀ arg ∈ args, Normal arg)
    (associative : op.isAssociative) (operands : List Expr) : .node op operands ∉ merged op args := by
  intro member
  rw [merged, if_pos associative] at member
  obtain ⟨arg, inside, below⟩ := List.mem_flatMap.mp member
  cases arg with
  | leaf l => cases List.mem_singleton.mp below
  | node f inner =>
    simp only [splice] at below
    split at below
    · rename_i same
      subst same
      exact (normal_node.mp (each _ inside)).1.flat associative operands below
    · rename_i other
      cases List.mem_singleton.mp below
      exact other rfl

theorem normal_arranged {op : Operator} {args : List Expr} (each : ∀ arg ∈ args, Normal arg)
    (simple : simplified? op args = none)
    (flat : op.isAssociative → ∀ operands, .node op operands ∉ args) : Normal (arranged op args) := by
  obtain ⟨negation, distance, opposite⟩ := simplified?_eq_none_iff.mp simple
  unfold arranged
  split
  · refine normal_node.mpr ⟨?_, by simpa [and_comm] using each⟩
    constructor <;> simp [Operator.isAssociative, Operator.isSymmetric]
  · refine normal_node.mpr ⟨?_, by simpa [and_comm] using each⟩
    constructor <;> simp [Operator.isAssociative, Operator.isSymmetric]
  · rename_i notGreater notGreaterEqual
    have oriented : op = .gt ∨ op = .ge → args.length ≠ 2 := by
      intro inverted pair
      obtain ⟨a, b, rfl⟩ := List.length_eq_two.mp pair
      rcases inverted with rfl | rfl
      · exact notGreater a b rfl rfl
      · exact notGreaterEqual a b rfl rfl
    by_cases symmetric : op.isSymmetric
    · rw [if_pos symmetric]
      have members := fun e => (sorted_perm args).mem_iff (a := e)
      refine normal_node.mpr ⟨?_, fun arg member => each arg ((members arg).mp member)⟩
      constructor
      · intro associative operands member
        exact flat associative operands ((members _).mp member)
      · intro inverted
        rw [(sorted_perm args).length_eq]
        exact oriented inverted
      · rintro rfl
        cases symmetric
      · rintro rfl
        cases symmetric
      · rintro rfl
        cases symmetric
      · intro _
        exact ascending_sorted args
    · rw [if_neg symmetric]
      refine normal_node.mpr ⟨?_, each⟩
      exact ⟨flat, oriented, negation, distance, opposite, fun ascending => absurd ascending symmetric⟩

theorem simplified?_merged {op : Operator} {args : List Expr} (simple : simplified? op args = none) :
    simplified? op (merged op args) = none := by
  unfold merged
  split
  · cases op <;> first | rfl | contradiction
  · exact simple

theorem normal_settled {op : Operator} {args : List Expr} (each : ∀ arg ∈ args, Normal arg) :
    Normal (settled op args) := by
  unfold settled
  split
  · rename_i e found
    unfold simplified? at found
    split at found
    · -- What is left of a double negation was normal below it.
      rename_i operands
      have below := (normal_node.mp (each _ (List.mem_singleton.mpr rfl))).2
      exact below e (List.mem_of_mem_head? found)
    · rename_i test a b _
      obtain ⟨opposite, negation, rfl⟩ := Option.map_eq_some_iff.mp found
      have below := (normal_node.mp (each _ (List.mem_singleton.mpr rfl))).2
      refine normal_arranged below ?_ ?_
      · cases test <;> cases negation <;> rfl
      · exact fun associative => absurd associative (Operator.not_associative_of_negation? negation)
    · rename_i operands
      cases found
      have below := (normal_node.mp (each _ (List.mem_singleton.mpr rfl))).2
      exact normal_arranged below rfl (fun associative => by cases associative)
    · obtain ⟨n, _, rfl⟩ := Option.map_eq_some_iff.mp found
      exact .leaf _
    · cases found
  · rename_i simple
    refine normal_arranged ?_ (simplified?_merged simple) (flat_merged each)
    intro arg member
    rcases mem_merged member with member | ⟨operands, inside, below⟩
    · exact each arg member
    · exact (normal_node.mp (each _ inside)).2 arg below

theorem normal_canonical (e : Expr) : Normal e.canonical := by
  induction e using Expr.induction with
  | leaf l => exact .leaf l
  | node op args ih =>
    rw [canonical, canonicalList_eq_map]
    apply normal_settled
    intro arg member
    obtain ⟨below, inside, rfl⟩ := List.mem_map.mp member
    exact ih below inside

/-- Operands as they stand under an operator. -/
def ordered (op : Operator) (args : List Expr) : List Expr := if op.isSymmetric then sorted args else args

theorem ordered_perm (op : Operator) (args : List Expr) : (ordered op args).Perm args := by
  unfold ordered
  split
  · exact sorted_perm args
  · exact .refl args

/-- Two operands change places only under a symmetric operator, which has the smaller rank first. -/
theorem ordered_pair (op : Operator) (a b : Expr) :
    ordered op [a, b] = [a, b] ∧ (op.isSymmetric → a.rank ≤ b.rank) ∨
      ordered op [a, b] = [b, a] ∧ op.isSymmetric ∧ b.rank ≤ a.rank := by
  unfold ordered
  split
  · rename_i symmetric
    rw [sorted_pair]
    split
    · rename_i below
      exact .inl ⟨rfl, fun _ => rank_le_of_isLE below⟩
    · rename_i above
      exact .inr ⟨rfl, symmetric, rank_le_of_isLE (isLE_of_not_isLE above)⟩
  · rename_i fixed
    exact .inl ⟨rfl, fun symmetric => absurd symmetric fixed⟩

theorem arranged_of_oriented {op : Operator} {args : List Expr}
    (oriented : op = .gt ∨ op = .ge → args.length ≠ 2) : arranged op args = .node op (ordered op args) := by
  unfold arranged
  split
  · exact absurd rfl (oriented (.inl rfl))
  · exact absurd rfl (oriented (.inr rfl))
  · rfl

theorem settled_of_rigid {op : Operator} {args : List Expr} (simple : simplified? op args = none)
    (flat : op.isAssociative → ∀ operands, .node op operands ∉ args)
    (oriented : op = .gt ∨ op = .ge → args.length ≠ 2) : settled op args = .node op (ordered op args) := by
  rw [settled, simple]
  dsimp only
  rw [merged_of_flat flat, arranged_of_oriented oriented]

theorem settled_of_unchanged {op : Operator} {args : List Expr} (unchanged : Unchanged op args) :
    settled op args = .node op args := by
  have simple := simplified?_eq_none_iff.mpr ⟨unchanged.negation, unchanged.distance, unchanged.opposite⟩
  rw [settled_of_rigid simple unchanged.flat unchanged.oriented, ordered]
  split
  · rename_i symmetric
    rw [sorted_of_ascending (unchanged.ascending symmetric)]
  · rfl

theorem canonical_of_normal {e : Expr} (normal : Normal e) : e.canonical = e := by
  induction normal with
  | leaf l => rfl
  | node here below ih =>
    rw [canonical, canonicalList_eq_map, List.map_congr_left ih, List.map_id', settled_of_unchanged here]

theorem canonical_eq_self_iff {e : Expr} : e.canonical = e ↔ Normal e := by
  constructor
  · intro same
    rw [← same]
    exact normal_canonical e
  · exact canonical_of_normal

/-- Canonical form is the form that no rule changes, whatever the numbers of operands. -/
theorem canonical_normalizes (e : Expr) :
    e.canonical.Normal ∧ (e.canonical = e ↔ e.Normal) ∧ e.canonical.canonical = e.canonical ∧
      (e.isCanonical ↔ e.Normal) := by
  refine ⟨normal_canonical e, canonical_eq_self_iff, canonical_of_normal (normal_canonical e), ?_⟩
  rw [isCanonical, decide_eq_true_iff, canonical_eq_self_iff]

end Expr

end Intension
