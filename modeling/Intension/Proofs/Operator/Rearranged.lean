import Intension.Proofs.Expr.Rewritten
import Intension.Proofs.Operator.Faults

namespace Intension.Operator

variable {op : Operator} {vs ws xs ys zs : List Word} {u v w : Word}

theorem plain_of_symmetric (symmetric : op.isSymmetric) (notSet : op ≠ set) : Expr.Plain op := by
  cases op <;> first | contradiction | decide

theorem Gives.eq_of_apply (plain : Expr.Plain op) (accepted : op.arity.accepts vs.length)
    (gives : op.Gives vs u) (applied : op.apply vs = .ok w) : u = w :=
  (eq_of_exact plain accepted (exact_of_gives plain accepted gives) applied).symm

/-- A symmetric operator has no fault but its own overflow. -/
theorem overflow_of_symmetric (symmetric : op.isSymmetric) (plain : Expr.Plain op)
    (accepted : op.arity.accepts vs.length) {fault : Fault} (found : op.apply vs = .error fault) :
    fault = .overflow op := by
  cases fails_of_apply (.plain plain accepted) found with
  | overflow => rfl
  | divisionByZero | moduloByZero | negativeExponent => cases symmetric

theorem apply_perm (symmetric : op.isSymmetric) (plain : Expr.Plain op) (whole : op ≠ add ∧ op ≠ mul)
    (accepted : op.arity.accepts vs.length) (perm : vs.Perm ws) : op.apply vs = op.apply ws := by
  have others : op.arity.accepts ws.length := perm.length_eq ▸ accepted
  cases first : op.apply vs with
  | ok v =>
    have gives : op.Gives ws v := Gives.perm symmetric plain perm accepted (.inl first)
    exact (gives.applied whole).symm
  | error fault =>
    cases second : op.apply ws with
    | ok w =>
      have gives : op.Gives vs w := Gives.perm symmetric plain perm.symm others (.inl second)
      cases first.symm.trans (gives.applied whole)
    | error other =>
      rw [overflow_of_symmetric symmetric plain accepted first,
        overflow_of_symmetric symmetric plain others second]

/-- The value of an associative operator is its value on that word alone, which is a truth value where
    the operator is a connective. -/
theorem apply_singleton (associative : op.isAssociative) (applied : op.apply ys = .ok v) :
    op.apply [v] = .ok v := by
  cases op with
  | add | mul | min | max => rfl
  | and | or | xor => rcases apply_truth rfl applied with rfl | rfl <;> rfl
  | _ => cases associative

theorem accepts_of_associative (associative : op.isAssociative) {n : Nat} (several : 2 ≤ n) :
    op.arity.accepts n := by
  cases op <;> first
    | (simp only [arity, Arity.accepts, decide_eq_true_iff]; omega)
    | cases associative

theorem accepts_around (associative : op.isAssociative) (nonempty : ys ≠ []) (others : xs ≠ [] ∨ zs ≠ []) :
    op.arity.accepts (xs ++ ys ++ zs).length := by
  apply accepts_of_associative associative
  simp only [← List.length_pos_iff] at nonempty others
  simp only [List.length_append]
  omega

theorem gives_splice (associative : op.isAssociative) (below : op.arity.accepts ys.length)
    (inner : op.apply ys = .ok v) (outer : op.apply (xs ++ [v] ++ zs) = .ok u) :
    op.arity.accepts (xs ++ ys ++ zs).length ∧ op.Gives (xs ++ ys ++ zs) u := by
  have plain := Expr.plain_of_associative associative
  by_cases others : xs ≠ [] ∨ zs ≠ []
  · have split : op.arity.accepts (xs ++ [v] ++ zs).length :=
      accepts_around associative (List.cons_ne_nil v []) others
    have whole : op.arity.accepts (xs ++ ys ++ zs).length :=
      accepts_around associative (plain.args_ne_nil below) others
    rw [← List.append_cons] at split outer
    exact ⟨whole, Gives.spliced associative plain split below whole (.inl inner) (.inl outer)⟩
  · -- A single operand can be fewer than the operator accepts.
    push Not at others
    rw [others.1, others.2, List.nil_append, List.append_nil] at outer ⊢
    rw [apply_singleton associative inner] at outer
    cases outer
    exact ⟨below, .inl inner⟩

theorem exists_apply_of_total (total : op ∈ [min, max, and, or, xor]) (nonempty : vs ≠ []) :
    ∃ r, op.apply vs = .ok r := by
  obtain ⟨v, rest, rfl⟩ := List.exists_cons_of_ne_nil nonempty
  simp only [List.mem_cons, List.mem_nil_iff, or_false] at total
  rcases total with rfl | rfl | rfl | rfl | rfl <;> exact ⟨_, rfl⟩

/-- The flags hold of the values: a symmetric operator gives the same result on its operands in any order,
    and operands of an associative one may give way to their own value. The partial results of sums and
    products depend on the order and the grouping, so these can overflow in one and have a value in the
    other, but never two values. -/
theorem apply_rearranged :
    (∀ (op : Operator) (vs ws : List Word), op.isSymmetric → op ≠ set →
      op.arity.accepts vs.length → vs.Perm ws →
        (op ≠ add ∧ op ≠ mul → op.apply vs = op.apply ws) ∧
        ∀ v w, op.apply vs = .ok v → op.apply ws = .ok w → v = w) ∧
    ∀ (op : Operator) (ys : List Word), op.isAssociative → op.arity.accepts ys.length →
      (∀ xs zs v u w, op.apply ys = .ok v → op.apply (xs ++ [v] ++ zs) = .ok u →
        op.apply (xs ++ ys ++ zs) = .ok w → u = w) ∧
      (op ∈ [min, max, and, or, xor] → ∃ v, op.apply ys = .ok v ∧
        ∀ xs zs, ∃ u, op.apply (xs ++ [v] ++ zs) = .ok u ∧ op.apply (xs ++ ys ++ zs) = .ok u) := by
  constructor
  · intro op vs ws symmetric notSet accepted perm
    have plain := plain_of_symmetric symmetric notSet
    refine ⟨fun whole => apply_perm symmetric plain whole accepted perm, ?_⟩
    intro v w first second
    have gives : op.Gives ws v := Gives.perm symmetric plain perm accepted (.inl first)
    exact gives.eq_of_apply plain (perm.length_eq ▸ accepted) second
  · intro op ys associative below
    have plain := Expr.plain_of_associative associative
    constructor
    · intro xs zs v u w inner outer flat
      have splice := gives_splice associative below inner outer
      exact splice.2.eq_of_apply plain splice.1 flat
    · intro total
      obtain ⟨v, inner⟩ := exists_apply_of_total total (plain.args_ne_nil below)
      refine ⟨v, inner, fun xs zs => ?_⟩
      have nonempty : xs ++ [v] ++ zs ≠ [] := by simp
      obtain ⟨u, outer⟩ := exists_apply_of_total total nonempty
      have whole : op ≠ add ∧ op ≠ mul := by
        constructor <;> rintro rfl <;> simp at total
      exact ⟨u, outer, (gives_splice associative below inner outer).2.applied whole⟩

/-- The difference overflows both ways, and the sum in one of three orders only. -/
theorem apply_rearranged_edges :
    (apply dist [Int64.minValue, 1] = .error (.overflow dist) ∧
        apply dist [1, Int64.minValue] = apply dist [Int64.minValue, 1]) ∧
      apply add [Int64.maxValue, 1, -1] = .error (.overflow add) ∧
      (∃ v w, apply add [Int64.maxValue, -1, 1] = .ok v ∧ apply add [-1, 1, Int64.maxValue] = .ok w ∧
        v = w) ∧
      (∃ u w, apply mul ([2] ++ [12] ++ [5]) = .ok u ∧ apply mul ([2] ++ [3, 4] ++ [5]) = .ok w ∧ u = w) ∧
      ∃ v, apply xor [7, 0] = .ok v ∧
        ∀ xs zs, ∃ u, apply xor (xs ++ [v] ++ zs) = .ok u ∧ apply xor (xs ++ [7, 0] ++ zs) = .ok u := by
  have turned : [1, Int64.minValue].Perm [Int64.minValue, 1] := .swap _ _ []
  have shifted : [Int64.maxValue, -1, 1].Perm [-1, 1, Int64.maxValue] := by decide
  have distances := apply_rearranged.1 dist _ _ rfl (by decide) rfl turned
  have sums := apply_rearranged.1 add _ _ rfl (by decide) rfl shifted
  have products := apply_rearranged.2 mul [3, 4] rfl rfl
  refine ⟨⟨rfl, distances.1 (by decide)⟩, rfl, ⟨_, _, rfl, rfl, sums.2 _ _ rfl rfl⟩,
    ⟨_, _, rfl, rfl, products.1 [2] [5] 12 _ _ rfl rfl rfl⟩, ?_⟩
  exact (apply_rearranged.2 xor [7, 0] rfl rfl).2 (by decide)

end Intension.Operator
