import Mathlib.Data.List.Basic
import Intension.Expr.Canonical

namespace Intension

theorem Operator.ordinal_inj {op other : Operator} : op.ordinal = other.ordinal ↔ op = other := by
  constructor
  · intro same
    cases op <;> cases other <;> first | rfl | cases same
  · rintro rfl
    rfl

theorem Wildcard.ordinal_inj {w x : Wildcard} : w.ordinal = x.ordinal ↔ w = x := by
  constructor
  · intro same
    cases w <;> cases x <;> first | rfl | cases same
  · rintro rfl
    rfl

namespace Leaf

theorem compare_swap (l m : Leaf) : (l.compare m).swap = m.compare l := by
  cases l <;> cases m <;>
    simp [compare, rank, Ordering.swap_then, ← Std.OrientedOrd.eq_swap]

theorem compare_eq_iff {l m : Leaf} : l.compare m = .eq ↔ l = m := by
  cases l with
  | var v =>
    cases m with
    | var w =>
      obtain ⟨id, name⟩ := v
      obtain ⟨other, text⟩ := w
      simp [compare]
    | _ => simp [compare, rank]
  | const k => cases m <;> simp [compare, rank]
  | param i => cases m <;> simp [compare, rank]
  | wild w => cases m <;> simp [compare, rank, Wildcard.ordinal_inj]

theorem rank_le_of_compare {l m : Leaf} (below : l.compare m = .lt) : l.rank ≤ m.rank := by
  cases l <;> cases m <;> first | exact Nat.le_refl _ | exact Nat.le_of_lt (Nat.compare_eq_lt.mp below)

theorem compare_of_rank {l m : Leaf} (below : l.rank < m.rank) : l.compare m = .lt := by
  cases l <;> cases m <;> first
    | exact absurd below (Nat.lt_irrefl _)
    | exact Nat.compare_eq_lt.mpr below

theorem compare_var_trans {v w x : Variable} (first : (var v).compare (var w) = .lt)
    (second : (var w).compare (var x) = .lt) : (var v).compare (var x) = .lt := by
  simp only [compare, Ordering.then_eq_lt, Nat.compare_eq_lt, Nat.compare_eq_eq] at first second ⊢
  rcases first with first | ⟨same, first⟩
  · exact .inl (by omega)
  · rcases second with second | ⟨equal, second⟩
    · exact .inl (by omega)
    · exact .inr ⟨by omega, Std.TransCmp.lt_trans first second⟩

theorem compare_trans {l m n : Leaf} (first : l.compare m = .lt) (second : m.compare n = .lt) :
    l.compare n = .lt := by
  have before := rank_le_of_compare first
  have after := rank_le_of_compare second
  by_cases level : l.rank = n.rank
  · -- All three leaves are of one sort, which has an order of its own.
    have middle : l.rank = m.rank := by omega
    cases l <;> cases m <;> cases middle <;> cases n <;> cases level <;> first
      | exact compare_var_trans first second
      | exact @Std.TransCmp.lt_trans _ Ord.compare _ _ _ _ first second
  · exact compare_of_rank (by omega)

end Leaf

namespace Expr

theorem compare_swap (a b : Expr) : (a.compare b).swap = b.compare a := by
  induction a using Expr.induction generalizing b with
  | leaf l =>
    cases b with
    | leaf m => exact l.compare_swap m
    | node g bs => simp [compare, ← Std.OrientedOrd.eq_swap]
  | node f as ih =>
    cases b with
    | leaf m => simp [compare, ← Std.OrientedOrd.eq_swap]
    | node g bs =>
      have operands : (compareList as bs).swap = compareList bs as := by
        induction as generalizing bs with
        | nil => cases bs <;> rfl
        | cons a as rest =>
          cases bs with
          | nil => rfl
          | cons b bs =>
            rw [compareList, compareList, Ordering.swap_then, ih a (by simp),
              rest (fun other member => ih other (List.mem_cons_of_mem _ member))]
      simp [compare, Ordering.swap_then, ← Std.OrientedOrd.eq_swap, operands]

theorem compare_eq_iff {a b : Expr} : a.compare b = .eq ↔ a = b := by
  induction a using Expr.induction generalizing b with
  | leaf l =>
    cases b with
    | leaf m => simp [compare, Leaf.compare_eq_iff]
    | node g bs => cases l <;> simp [compare, Leaf.rank]
  | node f as ih =>
    cases b with
    | leaf m => cases m <;> simp [compare, Leaf.rank]
    | node g bs =>
      have operands : compareList as bs = .eq ↔ as = bs := by
        induction as generalizing bs with
        | nil => cases bs <;> simp [compareList]
        | cons a as rest =>
          cases bs with
          | nil => simp [compareList]
          | cons b bs =>
            simp [compareList, ih a (by simp),
              rest (fun other member => ih other (List.mem_cons_of_mem _ member))]
      simp only [compare, Ordering.then_eq_eq, Nat.compare_eq_eq, Operator.ordinal_inj, operands,
        node.injEq]
      constructor
      · rintro ⟨rfl, _, rfl⟩
        exact ⟨rfl, rfl⟩
      · rintro ⟨rfl, rfl⟩
        exact ⟨rfl, rfl, rfl⟩

theorem compare_node_lt {f g : Operator} {as bs : List Expr} :
    (Expr.node f as).compare (.node g bs) = .lt ↔
      f.ordinal < g.ordinal ∨ f = g ∧ (as.length < bs.length ∨
        as.length = bs.length ∧ compareList as bs = .lt) := by
  simp only [compare, Ordering.then_eq_lt, Nat.compare_eq_lt, Nat.compare_eq_eq, Operator.ordinal_inj]

theorem compareList_trans {as bs cs : List Expr}
    (each : ∀ a ∈ as, ∀ {b c : Expr}, a.compare b = .lt → b.compare c = .lt → a.compare c = .lt)
    (first : compareList as bs = .lt) (second : compareList bs cs = .lt) :
    compareList as cs = .lt := by
  induction as generalizing bs cs with
  | nil =>
    cases bs with
    | nil => cases first
    | cons b bs =>
      cases cs with
      | nil => cases second
      | cons c cs => rfl
  | cons a as ih =>
    cases bs with
    | nil => cases first
    | cons b bs =>
      cases cs with
      | nil => cases second
      | cons c cs =>
        simp only [compareList, Ordering.then_eq_lt, compare_eq_iff] at first second ⊢
        rcases first with first | ⟨rfl, first⟩
        · rcases second with second | ⟨rfl, second⟩
          · exact .inl (each a (by simp) first second)
          · exact .inl first
        · rcases second with second | ⟨rfl, second⟩
          · exact .inl second
          · exact .inr ⟨rfl, ih (fun other member => each other (List.mem_cons_of_mem _ member))
              first second⟩

theorem compare_trans {a b c : Expr} (first : a.compare b = .lt) (second : b.compare c = .lt) :
    a.compare c = .lt := by
  induction a using Expr.induction generalizing b c with
  | leaf l =>
    cases b with
    | leaf m =>
      cases c with
      | leaf n => exact Leaf.compare_trans first second
      | node h cs =>
        have before := Leaf.rank_le_of_compare first
        have after := Nat.compare_eq_lt.mp second
        exact Nat.compare_eq_lt.mpr (by omega)
    | node g bs =>
      cases c with
      | leaf n =>
        have before := Nat.compare_eq_lt.mp first
        have after := Nat.compare_eq_lt.mp second
        exact Leaf.compare_of_rank (by omega)
      | node h cs => exact first
  | node f as ih =>
    cases b with
    | leaf m =>
      have before := Nat.compare_eq_lt.mp first
      cases c with
      | leaf n =>
        have after := Leaf.rank_le_of_compare second
        exact Nat.compare_eq_lt.mpr (by omega)
      | node h cs =>
        have after := Nat.compare_eq_lt.mp second
        omega
    | node g bs =>
      cases c with
      | leaf n => exact second
      | node h cs =>
        rw [compare_node_lt] at first second ⊢
        rcases first with first | ⟨rfl, first⟩
        · rcases second with second | ⟨rfl, _⟩
          · exact .inl (by omega)
          · exact .inl first
        · rcases second with second | ⟨rfl, second⟩
          · exact .inl second
          · refine .inr ⟨rfl, ?_⟩
            rcases first with first | ⟨same, first⟩
            · exact .inl (by omega)
            · rcases second with second | ⟨equal, second⟩
              · exact .inl (by omega)
              · exact .inr ⟨by omega, compareList_trans (fun a member => ih a member) first second⟩

instance : Std.LawfulEqCmp compare where
  compare_self := compare_eq_iff.mpr rfl
  eq_of_compare := compare_eq_iff.mp

instance : Std.TransCmp compare where
  eq_swap := (compare_swap _ _).symm
  isLE_trans := by
    intro a b c first second
    rw [Ordering.isLE_iff_eq_lt_or_eq_eq, compare_eq_iff] at first second
    rcases first with first | rfl
    · rcases second with second | rfl
      · exact Ordering.isLE_of_eq_lt (compare_trans first second)
      · exact Ordering.isLE_of_eq_lt first
    · rw [Ordering.isLE_iff_eq_lt_or_eq_eq, compare_eq_iff]
      exact second

theorem isLE_of_not_isLE {a b : Expr} (above : ¬ (a.compare b).isLE) : (b.compare a).isLE := by
  rw [← compare_swap a b]
  cases order : a.compare b <;> simp_all

/-- The rank of a leaf or of an operator. -/
def rank : Expr → Nat
  | .leaf l => l.rank
  | .node _ _ => 2

theorem rank_le_of_isLE {a b : Expr} (below : (a.compare b).isLE) : a.rank ≤ b.rank := by
  rw [Ordering.isLE_iff_eq_lt_or_eq_eq, compare_eq_iff] at below
  rcases below with below | rfl
  · cases a with
    | leaf l =>
      cases b with
      | leaf m => exact Leaf.rank_le_of_compare below
      | node g bs => exact Nat.le_of_lt (Nat.compare_eq_lt.mp below)
    | node f as =>
      cases b with
      | leaf m => exact Nat.le_of_lt (Nat.compare_eq_lt.mp below)
      | node g bs => exact Nat.le_refl 2
  · exact Nat.le_refl _

/-- Operands in canonical order. -/
def Ascending (es : List Expr) : Prop := es.Pairwise (fun a b => (a.compare b).isLE)

theorem ascending_sorted (es : List Expr) : Ascending (sorted es) := by
  refine List.pairwise_mergeSort ?_ ?_ es
  · intro a b c
    exact Std.TransCmp.isLE_trans
  · intro a b
    rw [Bool.or_eq_true, or_iff_not_imp_left]
    exact isLE_of_not_isLE

theorem sorted_of_ascending {es : List Expr} (ascending : Ascending es) : sorted es = es :=
  List.mergeSort_of_pairwise ascending

theorem sorted_perm (es : List Expr) : (sorted es).Perm es := List.mergeSort_perm _ _

theorem sorted_pair (a b : Expr) :
    sorted [a, b] = if (a.compare b).isLE then [a, b] else [b, a] := by
  simp [sorted, List.mergeSort, List.MergeSort.Internal.splitInTwo, List.merge]

theorem sorted_congr {as bs : List Expr} (perm : as.Perm bs) : sorted as = sorted bs := by
  have same := ((sorted_perm as).trans perm).trans (sorted_perm bs).symm
  refine same.eq_of_pairwise ?_ (ascending_sorted as) (ascending_sorted bs)
  intro a b _ _ below above
  exact compare_eq_iff.mp (Std.OrientedCmp.isLE_antisymm below above)

theorem eq_sorted_of_ascending {as bs : List Expr} (perm : as.Perm bs) (ascending : Ascending bs) :
    sorted as = bs := by
  rw [sorted_congr perm, sorted_of_ascending ascending]

/-- The order of expressions is linear and tells any two of them apart, so operands have one
    arrangement only in which they ascend. -/
theorem compare_linear :
    (∀ a b : Expr, a.compare b = .eq ↔ a = b) ∧
      (∀ a b : Expr, b.compare a = (a.compare b).swap) ∧
      (∀ a b c : Expr, a.compare b ≠ .gt → b.compare c ≠ .gt → a.compare c ≠ .gt) ∧
      (∀ as bs : List Expr, as.Perm bs → sorted as = sorted bs) ∧
      ∀ as bs : List Expr, as.Perm bs → Ascending bs → sorted as = bs := by
  refine ⟨?_, ?_, ?_, ?_, ?_⟩
  · intro a b
    exact compare_eq_iff
  · intro a b
    exact (compare_swap a b).symm
  · intro a b c first second
    rw [Ne, Ordering.ne_gt_iff_isLE] at first second ⊢
    exact Std.TransCmp.isLE_trans first second
  · intro as bs
    exact sorted_congr
  · intro as bs
    exact eq_sorted_of_ascending

/-- Two variables with one number, a parameter, sums with fewer and with more operands, a constant
    and a wildcard. -/
def mixedOperands : List Expr :=
  [.leaf (.var ⟨4, "x"⟩), .leaf (.var ⟨4, "y"⟩), .leaf (.param 2), .node .add [],
    .node .add [.leaf (.var ⟨4, "x"⟩)], .leaf (.const (-1)), .leaf (.wild .any)]

theorem compare_linear_mixedOperands :
    ((leaf (.var ⟨4, "x"⟩)).compare (.leaf (.var ⟨4, "y"⟩)) ≠ .gt ∧
        (leaf (.var ⟨4, "y"⟩)).compare (.node .add []) ≠ .gt ∧
        (leaf (.var ⟨4, "x"⟩)).compare (.node .add []) ≠ .gt) ∧
      mixedOperands.reverse.Perm mixedOperands ∧ Ascending mixedOperands ∧
      sorted mixedOperands.reverse = sorted mixedOperands ∧
      sorted mixedOperands.reverse = mixedOperands := by
  have first : (leaf (.var ⟨4, "x"⟩)).compare (.leaf (.var ⟨4, "y"⟩)) ≠ .gt := by decide
  have second : (leaf (.var ⟨4, "y"⟩)).compare (.node .add []) ≠ .gt := by decide
  have perm := mixedOperands.reverse_perm
  have ascending : Ascending mixedOperands := by
    unfold Ascending
    decide
  exact ⟨⟨first, second, compare_linear.2.2.1 _ _ _ first second⟩, perm, ascending,
    compare_linear.2.2.2.1 _ _ perm, compare_linear.2.2.2.2 _ _ perm ascending⟩

end Expr

end Intension
