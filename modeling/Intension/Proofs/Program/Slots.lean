import Mathlib.Data.List.Perm.Subperm
import Intension.Program.Assembly
import Intension.Proofs.Distinct
import Intension.Proofs.Expr.WellFormed

namespace Intension

namespace Program

theorem length_of_dense {l : List Nat} (nodup : l.Nodup) {n : Nat} (dense : ∀ i, i ∈ l ↔ i < n) :
    l.length = n := by
  have perm : l.Perm (List.range n) :=
    (List.perm_ext_iff_of_nodup nodup List.nodup_range).mpr (fun i => by rw [dense, List.mem_range])
  rw [perm.length_eq, List.length_range]

theorem dense_of_highest {l : List Nat} (nodup : l.Nodup) {highest : Nat}
    (found : l.max? = some highest) (full : highest + 1 = l.length) (i : Nat) :
    i ∈ l ↔ i < l.length := by
  obtain ⟨_, bound⟩ := List.max?_eq_some_iff.mp found
  have below : l ⊆ List.range l.length := by
    intro j member
    have small := bound j member
    exact List.mem_range.mpr (by omega)
  have perm := (nodup.subperm below).perm_of_length_le (by simp)
  rw [perm.mem_iff, List.mem_range]

theorem highest_of_dense {l : List Nat} {highest n : Nat} (found : l.max? = some highest)
    (dense : ∀ i, i ∈ l ↔ i < n) : highest + 1 = n := by
  obtain ⟨member, bound⟩ := List.max?_eq_some_iff.mp found
  have inside := (dense highest).mp member
  have last := bound (n - 1) ((dense (n - 1)).mpr (by omega))
  omega

theorem mem_slotsUsed {ts : List Token} {i : Nat} :
    i ∈ slotsUsed ts ↔ i ∈ ts.filterMap Token.slot? := mem_distinctBy_id

/-- A stream without variables has a number of slots exactly when it uses all slots below it. -/
theorem slotCount_unnamed {ts : List Token} (unnamed : ts.filterMap Token.var? = []) (n : Nat) :
    slotCount ts = .ok n ↔ ∀ i, i ∈ ts.filterMap Token.slot? ↔ i < n := by
  have nodup : (slotsUsed ts).Nodup := nodup_distinctBy id _
  simp only [slotCount, variableIds, unnamed, List.map_nil, distinctBy, List.isEmpty_nil, Bool.not_true,
    Bool.false_and, Bool.false_eq_true, ite_false, ← mem_slotsUsed]
  cases found : (slotsUsed ts).max? with
  | none =>
    rw [List.max?_eq_none_iff.mp found]
    constructor
    · intro counted
      cases counted
      simp
    · intro dense
      have zero : n = 0 := by
        by_contra positive
        exact absurd ((dense 0).mpr (by omega)) (by simp)
      rw [zero]
      rfl
  | some highest =>
    dsimp only
    constructor
    · intro counted
      split at counted
      · rename_i full
        cases counted
        exact dense_of_highest nodup found full
      · cases counted
    · intro dense
      have full := highest_of_dense found dense
      have length := length_of_dense nodup dense
      rw [if_pos (by omega), length]

theorem slotCount_mixed {ts : List Token} (named : ts.filterMap Token.var? ≠ [])
    (slots : ts.filterMap Token.slot? ≠ []) : slotCount ts = .error .mixedVariables := by
  obtain ⟨v, member⟩ := List.exists_mem_of_ne_nil _ named
  obtain ⟨i, used⟩ := List.exists_mem_of_ne_nil _ slots
  have ids : v.id ∈ variableIds ts := mem_distinctBy_id.mpr (List.mem_map_of_mem member)
  have numbers : i ∈ slotsUsed ts := mem_slotsUsed.mpr used
  have someIds : (variableIds ts).isEmpty = false := by
    simpa using List.ne_nil_of_mem ids
  have someSlots : (slotsUsed ts).isEmpty = false := by
    simpa using List.ne_nil_of_mem numbers
  simp [slotCount, someIds, someSlots]

end Program

namespace Expr

/-- The variables in an expression from left to right, with repeats. -/
def occurrences (e : Expr) : List Variable := e.leaves.filterMap Leaf.var?

/-- The number of slots of an expression. Either all leaves are variables in scope, which they are
    unless two names share an identifier, or the parameters leave no number out. -/
def Slots (e : Expr) (n : Nat) : Prop :=
  (e.parameters = [] ∧ (∀ v ∈ e.occurrences, v ∈ e.scope) ∧ n = e.scope.length) ∨
    (e.occurrences = [] ∧ ∀ i, i ∈ e.parameters ↔ i < n)

theorem mem_occurrences {e : Expr} {v : Variable} : v ∈ e.occurrences ↔ .var v ∈ e.leaves := by
  rw [occurrences, List.mem_filterMap]
  constructor
  · rintro ⟨l, member, found⟩
    cases l <;> cases found
    exact member
  · intro member
    exact ⟨.var v, member, rfl⟩

theorem mem_parameters {e : Expr} {i : Nat} : i ∈ e.parameters ↔ .param i ∈ e.leaves := by
  rw [parameters, List.mem_filterMap]
  constructor
  · rintro ⟨l, member, found⟩
    cases l <;> cases found
    exact member
  · intro member
    exact ⟨.param i, member, rfl⟩

theorem mem_occurrences_of_mem_scope {e : Expr} {v : Variable} (member : v ∈ e.scope) :
    v ∈ e.occurrences := mem_of_mem_distinctBy member

theorem nodup_scope (e : Expr) : e.scope.Nodup := nodup_distinctBy Variable.id _

theorem nodup_ids (e : Expr) : (e.scope.map Variable.id).Nodup :=
  (pairwise_distinctBy Variable.id _).map _ (fun _ _ differs => differs)

theorem scope_eq_nil_iff {e : Expr} : e.scope = [] ↔ e.occurrences = [] := by
  constructor
  · intro none
    by_contra some
    obtain ⟨v, member⟩ := List.exists_mem_of_ne_nil _ some
    obtain ⟨w, found, _⟩ := exists_mem_distinctBy Variable.id member
    exact absurd found (by rw [show distinctBy Variable.id e.occurrences = e.scope from rfl, none]; simp)
  · intro none
    rw [scope, show e.leaves.filterMap Leaf.var? = e.occurrences from rfl, none]
    rfl

theorem tokens_ne_nil (e : Expr) (scope : List Variable) : e.tokens scope ≠ [] := by
  cases e <;> simp [tokens]

theorem filterMap_tokens {α : Type} (scope : List Variable) (f : Token → Option α)
    (operators : ∀ op n, f (.op op n) = none) (e : Expr) :
    (e.tokens scope).filterMap f = e.leaves.filterMap (fun l => f (Token.ofLeaf scope l)) := by
  induction e using Expr.induction with
  | leaf l => rfl
  | node op args ih =>
    have operands : (tokensList scope args).filterMap f =
        (leavesList args).filterMap (fun l => f (Token.ofLeaf scope l)) := by
      rw [tokensList_eq_flatMap, leavesList_eq_flatMap, List.filterMap_flatMap, List.filterMap_flatMap]
      exact List.flatMap_congr ih
    rw [tokens, leaves, List.filterMap_append, operands]
    simp [operators]

theorem filterMap_var_tokens (e : Expr) : (e.tokens []).filterMap Token.var? = e.occurrences := by
  rw [filterMap_tokens [] _ (fun _ _ => rfl), occurrences]
  congr
  funext l
  cases l <;> rfl

theorem filterMap_slot_tokens (e : Expr) : (e.tokens []).filterMap Token.slot? = e.parameters := by
  rw [filterMap_tokens [] _ (fun _ _ => rfl), parameters]
  congr
  funext l
  cases l <;> rfl

end Expr

end Intension
