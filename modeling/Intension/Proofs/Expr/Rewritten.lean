import Intension.Proofs.Expr.Rewrite

namespace Intension.Expr

/-- Negations are only of truth values. -/
def BooleanNegations : Expr → Prop :=
  Everywhere (fun op args => op = .not → ∀ arg ∈ args, arg.category? = some .boolean)

@[simp]
theorem booleanNegations_leaf (l : Leaf) : BooleanNegations (.leaf l) := .leaf l

theorem booleanNegations_node {op : Operator} {args : List Expr} :
    BooleanNegations (.node op args) ↔
      (op = .not → ∀ arg ∈ args, arg.category? = some .boolean) ∧ ∀ arg ∈ args, BooleanNegations arg :=
  everywhere_node

namespace Rewrite

theorem of_set {members : List Expr} {b : Expr} (rewrite : Rewrite (.node .set members) b) :
    ∃ others, b = .node .set others ∧ (members.Perm others ∨
      ∃ before a after c, members = before ++ a :: after ∧ others = before ++ c :: after ∧
        Rewrite a c) := by
  cases rewrite with
  | permuted symmetric perm => exact ⟨_, rfl, .inl perm⟩
  | spliced associative before inner after split => cases associative
  | operand before after split below => exact ⟨_, rfl, .inr ⟨before, _, after, _, split, rfl, below⟩⟩

theorem of_test {op : Operator} (membership : op = .mem ∨ op = .notMem) {tested : Expr}
    {members : List Expr} {b : Expr} (rewrite : Rewrite (.node op [tested, .node .set members]) b) :
    (∃ other, b = .node op [other, .node .set members] ∧ Rewrite tested other) ∨
      ∃ others, b = .node op [tested, .node .set others] ∧
        Rewrite (.node .set members) (.node .set others) := by
  cases rewrite with
  | permuted symmetric perm => rcases membership with rfl | rfl <;> cases symmetric
  | spliced associative before inner after split =>
    rcases membership with rfl | rfl <;> cases associative
  | greater a b => rcases membership with same | same <;> cases same
  | greaterEqual a b => rcases membership with same | same <;> cases same
  | operand before after split below =>
    rcases before with _ | ⟨first, _ | ⟨second, before⟩⟩
    · cases split
      exact .inl ⟨_, rfl, below⟩
    · cases split
      obtain ⟨others, rfl, _⟩ := of_set below
      exact .inr ⟨others, rfl, below⟩
    · simp at split

theorem category? {a b : Expr} (rewrite : Rewrite a b) (guarded : a.BooleanNegations) :
    b.category? = a.category? := by
  cases rewrite with
  | permuted symmetric perm => rfl
  | spliced associative before inner after split => rfl
  | greater a b => rfl
  | greaterEqual a b => rfl
  | negated found a b => rename_i test opposite; cases test <;> cases found <;> rfl
  | doubleNegation a =>
    have inner := (booleanNegations_node.mp guarded).2 _ (List.mem_singleton.mpr rfl)
    exact (booleanNegations_node.mp inner).1 rfl _ (List.mem_singleton.mpr rfl)
  | distance a b => rfl
  | opposite found => rfl
  | operand before after split below => rfl

theorem booleanNegations {a b : Expr} (rewrite : Rewrite a b) (guarded : a.BooleanNegations) :
    b.BooleanNegations := by
  refine rewrite.everywhere ?_ guarded
  clear rewrite guarded
  intro op other args others rewrite guarded negation
  subst negation
  obtain ⟨here, below⟩ := booleanNegations_node.mp guarded
  cases rewrite with
  | permuted symmetric perm => cases symmetric
  | spliced associative before inner after split => cases associative
  | negated found a b => rename_i test; cases test <;> cases found
  | doubleNegation a =>
    have inner := (booleanNegations_node.mp (below _ (List.mem_singleton.mpr rfl))).2
    exact (booleanNegations_node.mp (inner _ (List.mem_singleton.mpr rfl))).1 rfl
  | operand before after split changed =>
    subst split
    refine forall_mem_replaced (here rfl) ?_
    rw [changed.category? (below _ List.mem_append_cons_self)]
    exact here rfl _ List.mem_append_cons_self

theorem filterMap_leaves {α : Type} {f : Leaf → Option α} (constants : ∀ k, f (.const k) = none)
    {a b : Expr} (rewrite : Rewrite a b) : (a.leaves.filterMap f).Perm (b.leaves.filterMap f) := by
  induction rewrite with
  | permuted symmetric perm =>
    simp only [leaves, leavesList_eq_flatMap]
    exact (perm.flatMap_right leaves).filterMap f
  | spliced associative before inner after split =>
    subst split
    simp only [leaves, leavesList_eq_flatMap, List.flatMap_append, List.flatMap_cons, List.append_assoc]
    rfl
  | greater a b =>
    simp only [leaves, leavesList, List.append_nil, List.filterMap_append]
    exact List.perm_append_comm
  | greaterEqual a b =>
    simp only [leaves, leavesList, List.append_nil, List.filterMap_append]
    exact List.perm_append_comm
  | negated found a b => simp only [leaves, leavesList, List.append_nil]; rfl
  | doubleNegation a => simp only [leaves, leavesList, List.append_nil]; rfl
  | distance a b => simp only [leaves, leavesList, List.append_nil]; rfl
  | opposite found => simp [leaves, leavesList, constants]
  | operand before after split below ih =>
    subst split
    simp only [leaves, leavesList_eq_flatMap, List.flatMap_append, List.flatMap_cons,
      List.filterMap_append]
    exact (ih.append_right _).append_left _

end Rewrite

theorem WellFormed.sized {e : Expr} (valid : e.WellFormed) : e.Sized := by
  induction valid with
  | leaf concrete => exact .leaf _
  | noMembers => exact .node rfl (by simp)
  | test membership first rest ihFirst ihRest =>
    refine sized_node.mpr ⟨by rcases membership with rfl | rfl <;> rfl, ?_⟩
    intro arg member
    rcases List.mem_cons.mp member with rfl | member
    · exact ihFirst
    · rw [List.mem_singleton.mp member]
      exact .node rfl ihRest
  | operator plain arity each ih => exact .node arity ih

theorem WellFormed.operands {op : Operator} {args : List Expr} (valid : WellFormed (.node op args))
    (plain : Plain op) : op.arity.accepts args.length ∧ ∀ arg ∈ args, arg.WellFormed := by
  obtain ⟨notSet, notMem, notNotMem⟩ := plain
  cases valid with
  | noMembers => contradiction
  | test membership first rest => rcases membership with same | same <;> contradiction
  | operator plain arity each => exact ⟨arity, each⟩

theorem plain_of_associative {op : Operator} (associative : op.isAssociative) : Plain op := by
  cases op <;> first | contradiction | decide

theorem plain_negated {test opposite : Operator} (found : test.negation? = some opposite)
    (plain : Plain test) : Plain opposite := by
  cases test <;> cases found <;> first | decide | exact absurd plain (by decide)

theorem Rewrite.wellFormed {a b : Expr} (rewrite : Rewrite a b) (valid : a.WellFormed) :
    b.WellFormed := by
  induction valid generalizing b with
  | leaf concrete => cases rewrite
  | noMembers =>
    obtain ⟨others, rfl, perm | ⟨before, _, after, _, split, _⟩⟩ := rewrite.of_set
    · rw [List.nil_perm.mp perm]
      exact .noMembers
    · simp at split
  | test membership first rest ihFirst ihRest =>
    rcases rewrite.of_test membership with ⟨other, rfl, below⟩ | ⟨others, rfl, below⟩
    · exact .test membership (ihFirst below) rest
    · refine .test membership first ?_
      obtain ⟨_, same, perm | ⟨before, a, after, c, rfl, changed, deeper⟩⟩ := below.of_set
      · cases same
        exact fun member inside => rest member (perm.mem_iff.mpr inside)
      · cases same
        subst changed
        exact forall_mem_replaced rest (ihRest _ List.mem_append_cons_self deeper)
  | operator plain arity each ih =>
    have sized := rewrite.sized (WellFormed.operator plain arity each).sized
    cases rewrite with
    | permuted symmetric perm =>
      exact .operator plain (sized_node.mp sized).1 (fun arg member => each arg (perm.mem_iff.mpr member))
    | spliced associative before inner after split =>
      subst split
      have deeper := each _ List.mem_append_cons_self
      exact .operator plain (sized_node.mp sized).1 (forall_mem_spliced each (deeper.operands plain).2)
    | greater a b => exact .operator (by decide) rfl (by simpa [and_comm] using each)
    | greaterEqual a b =>
      exact .operator (by decide) rfl (by simpa [and_comm] using each)
    | negated found a b =>
      rename_i test opposite
      cases each _ (List.mem_singleton.mpr rfl) with
      | test membership first rest =>
        refine .test ?_ first rest
        rcases membership with rfl | rfl <;> cases found <;> simp
      | operator inner arity each =>
        exact .operator (plain_negated found inner) (accepts_negated found) each
    | doubleNegation a =>
      have inner := (each _ (List.mem_singleton.mpr rfl)).operands plain
      exact inner.2 _ (List.mem_singleton.mpr rfl)
    | distance a b =>
      have inner := (each _ (List.mem_singleton.mpr rfl)).operands (by decide)
      exact .operator (by decide) rfl inner.2
    | opposite found => exact .leaf (by simp)
    | operand before after split below =>
      subst split
      exact .operator plain (sized_node.mp sized).1
        (forall_mem_replaced each (ih _ List.mem_append_cons_self below))

namespace Rewrites

variable {a b : Expr}

theorem wellFormed (rewrites : Rewrites a b) (valid : a.WellFormed) : b.WellFormed := by
  induction rewrites with
  | refl => exact valid
  | tail _ last ih => exact last.wellFormed ih

theorem booleanNegations (rewrites : Rewrites a b) (guarded : a.BooleanNegations) :
    b.BooleanNegations := by
  induction rewrites with
  | refl => exact guarded
  | tail _ last ih => exact last.booleanNegations ih

theorem filterMap_leaves {α : Type} {f : Leaf → Option α} (constants : ∀ k, f (.const k) = none)
    (rewrites : Rewrites a b) : (a.leaves.filterMap f).Perm (b.leaves.filterMap f) := by
  induction rewrites with
  | refl => exact .refl _
  | tail _ last ih => exact ih.trans (last.filterMap_leaves constants)

end Rewrites

end Intension.Expr
