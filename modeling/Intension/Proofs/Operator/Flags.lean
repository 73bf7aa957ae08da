import Mathlib.Data.List.MinMax
import Mathlib.Data.List.Permutation
import Intension.Proofs.Operator.Exact

namespace Intension

theorem min?_perm {vs ws : List Int} (perm : vs.Perm ws) : vs.min? = ws.min? := by
  apply Option.ext
  intro least
  simp only [List.min?_eq_some_iff, perm.mem_iff]

theorem max?_perm {vs ws : List Int} (perm : vs.Perm ws) : vs.max? = ws.max? := by
  apply Option.ext
  intro most
  simp only [List.max?_eq_some_iff, perm.mem_iff]

theorem min?_splice {ys : List Int} {v : Int} (least : ys.min? = some v) (xs zs : List Int) :
    (xs ++ v :: zs).min? = (xs ++ ys ++ zs).min? := by
  obtain ⟨member, below⟩ := List.min?_eq_some_iff.mp least
  apply Option.ext
  intro a
  have bound : (∀ b ∈ ys, a ≤ b) ↔ a ≤ v :=
    ⟨fun all => all v member, fun first b inside => first.trans (below b inside)⟩
  have inside : a ∈ ys → a ≤ v → a = v := fun other first => le_antisymm first (below a other)
  simp only [List.min?_eq_some_iff, List.mem_append, List.mem_cons, or_imp, forall_and, forall_eq, bound]
  grind

theorem max?_splice {ys : List Int} {v : Int} (most : ys.max? = some v) (xs zs : List Int) :
    (xs ++ v :: zs).max? = (xs ++ ys ++ zs).max? := by
  obtain ⟨member, above⟩ := List.max?_eq_some_iff.mp most
  apply Option.ext
  intro a
  have bound : (∀ b ∈ ys, b ≤ a) ↔ v ≤ a :=
    ⟨fun all => all v member, fun last b inside => (above b inside).trans last⟩
  have inside : a ∈ ys → v ≤ a → a = v := fun other last => le_antisymm (above a other) last
  simp only [List.max?_eq_some_iff, List.mem_append, List.mem_cons, or_imp, forall_and, forall_eq, bound]
  grind

namespace Operator

theorem exact_dist {vs : List Int} (length : vs.length ≠ 2) : exact dist vs = none := by
  rcases vs with _ | ⟨a, _ | ⟨b, _ | ⟨c, vs⟩⟩⟩
  · rfl
  · rfl
  · exact absurd rfl length
  · rfl

theorem exact_perm {op : Operator} (symmetric : op.isSymmetric) {vs ws : List Int}
    (perm : vs.Perm ws) : op.exact vs = op.exact ws := by
  cases op with
  | add => exact congrArg some perm.sum_eq
  | mul => exact congrArg some perm.prod_eq
  | min => exact min?_perm perm
  | max => exact max?_perm perm
  | ne => exact congrArg some (truth_congr perm.nodup_iff)
  | eq =>
    refine congrArg some (truth_congr ?_)
    rw [List.isChain_iff_pairwise, List.isChain_iff_pairwise]
    exact perm.pairwise_iff Eq.symm
  | and => exact congrArg some (truth_congr (by simp only [perm.mem_iff]))
  | or => exact congrArg some (truth_congr (by simp only [perm.mem_iff]))
  | iff => exact congrArg some (truth_congr (by simp only [perm.mem_iff]))
  | xor => exact congrArg some (truth_congr (by rw [perm.countP_eq]))
  | set => rfl
  | dist =>
    by_cases two : vs.length = 2
    · obtain ⟨a, b, rfl⟩ := List.length_eq_two.mp two
      rcases List.pair_perm.mp perm with rfl | rfl
      · rfl
      · have turned : (b - a).natAbs = (a - b).natAbs := by omega
        simp only [exact, turned]
    · rw [exact_dist two, exact_dist (perm.length_eq ▸ two)]
  | _ => cases symmetric

/-- The operands of an associative operator can give way to their own value under it. -/
theorem exact_splice {op : Operator} (associative : op.isAssociative) {ys : List Int} (nonempty : ys ≠ []) :
    ∃ v, op.exact ys = some v ∧ ∀ xs zs, op.exact (xs ++ v :: zs) = op.exact (xs ++ ys ++ zs) := by
  cases op with
  | add => exact ⟨_, rfl, fun xs zs => congrArg some (by simp)⟩
  | mul => exact ⟨_, rfl, fun xs zs => congrArg some (by simp)⟩
  | min =>
    obtain ⟨v, least⟩ := Option.ne_none_iff_exists'.mp (mt List.min?_eq_none_iff.mp nonempty)
    exact ⟨v, least, min?_splice least⟩
  | max =>
    obtain ⟨v, most⟩ := Option.ne_none_iff_exists'.mp (mt List.max?_eq_none_iff.mp nonempty)
    exact ⟨v, most, max?_splice most⟩
  | and =>
    refine ⟨_, rfl, fun xs zs => congrArg some (truth_congr ?_)⟩
    simp only [List.mem_append, List.mem_cons, or_imp, forall_and, forall_eq, truth_ne_zero, and_assoc]
  | or =>
    refine ⟨_, rfl, fun xs zs => congrArg some (truth_congr ?_)⟩
    simp only [List.mem_append, List.mem_cons, or_and_right, exists_or, exists_eq_left, truth_ne_zero,
      or_assoc]
  | xor =>
    refine ⟨_, rfl, fun xs zs => congrArg some (truth_congr ?_)⟩
    simp only [List.countP_append, List.countP_cons, decide_eq_true_iff, truth_ne_zero]
    split <;> omega
  | _ => cases associative

theorem exact_negation {test opposite : Operator} (found : test.negation? = some opposite)
    (plain : Expr.Plain test) (v w : Int) :
    ∃ n, test.exact [v, w] = some n ∧ opposite.exact [v, w] = some (truth (n = 0)) := by
  obtain ⟨_, notMem, notNotMem⟩ := plain
  cases test <;> cases found <;> first
    | contradiction
    | exact ⟨_, rfl, congrArg some (truth_congr (by simp [truth_eq_zero]))⟩

end Operator

end Intension
