import Intension.Proofs.Expr.Rewritten

namespace Intension.Expr

theorem sizeList_append (es fs : List Expr) : sizeList (es ++ fs) = sizeList es + sizeList fs := by
  induction es with
  | nil => rw [List.nil_append, sizeList, Nat.zero_add]
  | cons e es ih => rw [List.cons_append, sizeList, sizeList, ih, Nat.add_assoc]

theorem sizeList_perm {es fs : List Expr} (perm : es.Perm fs) : sizeList es = sizeList fs := by
  induction perm with
  | nil => rfl
  | cons e _ ih => rw [sizeList, sizeList, ih]
  | swap e f es =>
    simp only [sizeList]
    omega
  | trans _ _ first second => exact first.trans second

/-- Where each expression gives as many items as it has nodes, so do several of them together. -/
theorem length_flatMap_eq_sizeList {α : Type} {f : Expr → List α} {es : List Expr}
    (each : ∀ e ∈ es, (f e).length = e.size) : (es.flatMap f).length = sizeList es := by
  induction es with
  | nil => rfl
  | cons e es ih =>
    rw [List.flatMap_cons, List.length_append, each e List.mem_cons_self,
      ih (fun other member => each other (List.mem_cons_of_mem _ member)), sizeList]

theorem heightList_le_iff {es : List Expr} {bound : Nat} :
    heightList es ≤ bound ↔ ∀ e ∈ es, e.height < bound := by
  induction es with
  | nil => simp [heightList]
  | cons e es ih =>
    rw [heightList, Nat.max_le, ih, List.forall_mem_cons]
    exact and_congr_left' Nat.succ_le_iff

theorem height_le_iff {op : Operator} {args : List Expr} {bound : Nat} :
    (Expr.node op args).height ≤ bound ↔ ∀ arg ∈ args, arg.height < bound := heightList_le_iff

theorem height_lt_of_mem {op : Operator} {args : List Expr} {arg : Expr} (member : arg ∈ args) :
    arg.height < (Expr.node op args).height := height_le_iff.mp (Nat.le_refl _) arg member

theorem Rewrite.size_le {a b : Expr} (rewrite : Rewrite a b) : b.size ≤ a.size := by
  induction rewrite with
  | permuted symmetric perm =>
    have same := sizeList_perm perm
    simp only [size]
    omega
  | spliced associative before inner after split =>
    subst split
    simp only [size, sizeList_append, sizeList]
    omega
  | greater a b | greaterEqual a b | negated found a b | doubleNegation a | distance a b
  | opposite found =>
    simp only [size, sizeList]
    omega
  | operand before after split below ih =>
    subst split
    simp only [size, sizeList_append, sizeList]
    omega

theorem Rewrite.height_le {a b : Expr} (rewrite : Rewrite a b) : b.height ≤ a.height := by
  induction rewrite with
  | permuted symmetric perm =>
    refine height_le_iff.mpr ?_
    intro arg member
    exact height_lt_of_mem (perm.mem_iff.mpr member)
  | spliced associative before inner after split =>
    subst split
    refine height_le_iff.mpr (forall_mem_spliced (fun _ member => height_lt_of_mem member) ?_)
    intro arg member
    exact Nat.lt_trans (height_lt_of_mem member) (height_lt_of_mem List.mem_append_cons_self)
  | greater a b | greaterEqual a b | negated found a b | doubleNegation a | distance a b =>
    simp only [height, heightList]
    omega
  | opposite found => exact Nat.zero_le _
  | operand before after split below ih =>
    subst split
    refine height_le_iff.mpr (forall_mem_replaced (fun _ member => height_lt_of_mem member) ?_)
    exact Nat.lt_of_le_of_lt ih (height_lt_of_mem List.mem_append_cons_self)

theorem Rewrites.size_le {a b : Expr} (rewrites : Rewrites a b) : b.size ≤ a.size := by
  induction rewrites with
  | refl => exact Nat.le_refl _
  | tail _ last ih => exact Nat.le_trans last.size_le ih

theorem Rewrites.height_le {a b : Expr} (rewrites : Rewrites a b) : b.height ≤ a.height := by
  induction rewrites with
  | refl => exact Nat.le_refl _
  | tail _ last ih => exact Nat.le_trans last.height_le ih

end Intension.Expr
