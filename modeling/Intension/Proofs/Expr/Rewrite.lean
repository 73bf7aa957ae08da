import Mathlib.Data.List.Basic
import Mathlib.Logic.Relation
import Intension.Expr.Canonical
import Intension.Proofs.Expr.WellFormed

namespace Intension.Expr

/-- Every operator has as many operands as it takes. -/
def Sized : Expr → Prop := Everywhere (fun op args => op.arity.accepts args.length)

/-- One rule of canonical form, at any place in an expression. Lists of operands are split in
    hypotheses, so that cases can be taken on an operator with given operands. -/
inductive Rewrite : Expr → Expr → Prop
  | permuted {op : Operator} {args others : List Expr} (symmetric : op.isSymmetric)
      (perm : args.Perm others) : Rewrite (.node op args) (.node op others)
  | spliced {op : Operator} {args : List Expr} (associative : op.isAssociative)
      (before inner after : List Expr) (split : args = before ++ .node op inner :: after) :
      Rewrite (.node op args) (.node op (before ++ inner ++ after))
  | greater (a b : Expr) : Rewrite (.node .gt [a, b]) (.node .lt [b, a])
  | greaterEqual (a b : Expr) : Rewrite (.node .ge [a, b]) (.node .le [b, a])
  | negated {test opposite : Operator} (found : test.negation? = some opposite) (a b : Expr) :
      Rewrite (.node .not [.node test [a, b]]) (.node opposite [a, b])
  | doubleNegation (a : Expr) : Rewrite (.node .not [.node .not [a]]) a
  | distance (a b : Expr) : Rewrite (.node .abs [.node .sub [a, b]]) (.node .dist [a, b])
  | opposite {k n : Word} (found : Word.ofInt? (-k.toInt) = some n) :
      Rewrite (.node .neg [.leaf (.const k)]) (.leaf (.const n))
  | operand {op : Operator} {args : List Expr} (before : List Expr) {a b : Expr} (after : List Expr)
      (split : args = before ++ a :: after) (below : Rewrite a b) :
      Rewrite (.node op args) (.node op (before ++ b :: after))

abbrev Rewrites : Expr → Expr → Prop := Relation.ReflTransGen Rewrite

namespace Rewrites

theorem operand (op : Operator) (before after : List Expr) {a b : Expr} (below : Rewrites a b) :
    Rewrites (.node op (before ++ a :: after)) (.node op (before ++ b :: after)) := by
  induction below with
  | refl => exact .refl
  | tail _ last ih => exact ih.tail (.operand before after rfl last)

theorem operands (op : Operator) (f : Expr → Expr) {args : List Expr}
    (each : ∀ arg ∈ args, Rewrites arg (f arg)) (before : List Expr) :
    Rewrites (.node op (before ++ args)) (.node op (before ++ args.map f)) := by
  induction args generalizing before with
  | nil => exact .refl
  | cons arg args ih =>
    have first := operand op before args (each arg (by simp))
    have others := ih (fun other member => each other (List.mem_cons_of_mem _ member))
      (before ++ [f arg])
    simp only [List.append_assoc, List.singleton_append] at others
    exact first.trans others

end Rewrites

theorem rewrites_merged (op : Operator) (args : List Expr) :
    Rewrites (.node op args) (.node op (merged op args)) := by
  unfold merged
  split
  · rename_i associative
    have prefixed (before : List Expr) :
        Rewrites (.node op (before ++ args)) (.node op (before ++ args.flatMap (splice op))) := by
      induction args generalizing before with
      | nil => exact .refl
      | cons arg args ih =>
        have others := ih (before ++ splice op arg)
        rw [List.append_assoc, List.append_assoc] at others
        rw [List.flatMap_cons]
        refine Relation.ReflTransGen.trans ?_ others
        cases arg with
        | leaf l => exact .refl
        | node f inner =>
          by_cases same : f = op
          · subst same
            have step := Rewrite.spliced associative before inner args rfl
            rw [List.append_assoc] at step
            rw [splice, if_pos rfl]
            exact .single step
          · rw [splice, if_neg same]
            exact .refl
    exact prefixed []
  · exact .refl

theorem rewrites_arranged (op : Operator) (args : List Expr) :
    Rewrites (.node op args) (arranged op args) := by
  unfold arranged
  split
  · exact .single (.greater _ _)
  · exact .single (.greaterEqual _ _)
  · split
    · rename_i symmetric
      exact .single (.permuted symmetric (List.mergeSort_perm _ _).symm)
    · exact .refl

@[simp]
theorem sized_leaf (l : Leaf) : Sized (.leaf l) := .leaf l

theorem sized_node {op : Operator} {args : List Expr} :
    Sized (.node op args) ↔ op.arity.accepts args.length ∧ ∀ arg ∈ args, Sized arg := everywhere_node

theorem rewrites_simplified {op : Operator} {args : List Expr} (sized : Sized (.node op args)) {e : Expr}
    (found : simplified? op args = some e) : Rewrites (.node op args) e := by
  unfold simplified? at found
  split at found
  · rename_i operands
    have inner := (sized_node.mp ((sized_node.mp sized).2 (.node .not operands) (by simp))).1
    obtain ⟨a, rfl⟩ := List.length_eq_one_iff.mp (of_decide_eq_true inner)
    cases found
    exact .single (.doubleNegation _)
  · obtain ⟨negated, opposite, rfl⟩ := Option.map_eq_some_iff.mp found
    exact (Relation.ReflTransGen.single (.negated opposite _ _)).trans (rewrites_arranged negated _)
  · rename_i operands
    have inner := (sized_node.mp ((sized_node.mp sized).2 (.node .sub operands) (by simp))).1
    obtain ⟨a, b, rfl⟩ := List.length_eq_two.mp (of_decide_eq_true inner)
    cases found
    exact (Relation.ReflTransGen.single (.distance a b)).trans (rewrites_arranged .dist _)
  · obtain ⟨n, opposite, rfl⟩ := Option.map_eq_some_iff.mp found
    exact .single (.opposite opposite)
  · cases found

theorem rewrites_settled {op : Operator} {args : List Expr} (sized : Sized (.node op args)) :
    Rewrites (.node op args) (settled op args) := by
  unfold settled
  split
  · rename_i e found
    exact rewrites_simplified sized found
  · exact (rewrites_merged op args).trans (rewrites_arranged op _)

theorem accepts_spliced {op : Operator} (associative : op.isAssociative) {before inner after : List Expr}
    (outer : op.arity.accepts (before ++ .node op inner :: after).length)
    (below : op.arity.accepts inner.length) :
    op.arity.accepts (before ++ inner ++ after).length := by
  rw [List.length_append, List.length_cons] at outer
  rw [List.length_append, List.length_append]
  cases op <;> first
    | (simp only [Operator.arity, Arity.accepts, decide_eq_true_iff] at outer below ⊢; omega)
    | cases associative

theorem accepts_negated {test opposite : Operator} (found : test.negation? = some opposite) :
    opposite.arity.accepts 2 := by
  cases test <;> cases found <;> rfl

theorem forall_mem_replaced {holds : Expr → Prop} {before after : List Expr} {a b : Expr}
    (all : ∀ e ∈ before ++ a :: after, holds e) (replaced : holds b) :
    ∀ e ∈ before ++ b :: after, holds e := by
  intro e member
  rcases List.mem_append.mp member with member | member
  · exact all e (List.mem_append_left _ member)
  · rcases List.mem_cons.mp member with rfl | member
    · exact replaced
    · exact all e (List.mem_append_right _ (List.mem_cons_of_mem _ member))

theorem forall_mem_spliced {holds : Expr → Prop} {before inner after : List Expr} {a : Expr}
    (all : ∀ e ∈ before ++ a :: after, holds e) (spliced : ∀ e ∈ inner, holds e) :
    ∀ e ∈ before ++ inner ++ after, holds e := by
  intro e member
  rw [List.append_assoc, List.mem_append, List.mem_append] at member
  rcases member with member | member | member
  · exact all e (List.mem_append_left _ member)
  · exact spliced e member
  · exact all e (List.mem_append_right _ (List.mem_cons_of_mem _ member))

theorem Rewrite.everywhere {holds : Operator → List Expr → Prop}
    (root : ∀ {op other args others}, Rewrite (.node op args) (.node other others) →
      Everywhere holds (.node op args) → holds other others)
    {a b : Expr} (rewrite : Rewrite a b) (valid : Everywhere holds a) : Everywhere holds b := by
  induction rewrite with
  | permuted symmetric perm =>
    refine .node (root (.permuted symmetric perm) valid) ?_
    intro arg member
    exact (everywhere_node.mp valid).2 arg (perm.mem_iff.mpr member)
  | spliced associative before inner after split =>
    refine .node (root (.spliced associative before inner after split) valid) ?_
    subst split
    have below := (everywhere_node.mp valid).2
    have deeper := below _ List.mem_append_cons_self
    exact forall_mem_spliced below (everywhere_node.mp deeper).2
  | greater a b =>
    have below := (everywhere_node.mp valid).2
    exact .node (root (.greater a b) valid) (by simpa [and_comm] using below)
  | greaterEqual a b =>
    have below := (everywhere_node.mp valid).2
    exact .node (root (.greaterEqual a b) valid) (by simpa [and_comm] using below)
  | negated found a b =>
    have inner := (everywhere_node.mp valid).2 _ (List.mem_singleton.mpr rfl)
    exact .node (root (.negated found a b) valid) (everywhere_node.mp inner).2
  | doubleNegation a =>
    have inner := (everywhere_node.mp valid).2 _ (List.mem_singleton.mpr rfl)
    exact (everywhere_node.mp inner).2 a (List.mem_singleton.mpr rfl)
  | distance a b =>
    have inner := (everywhere_node.mp valid).2 _ (List.mem_singleton.mpr rfl)
    exact .node (root (.distance a b) valid) (everywhere_node.mp inner).2
  | opposite found => exact .leaf _
  | operand before after split below ih =>
    refine .node (root (.operand before after split below) valid) ?_
    subst split
    have others := (everywhere_node.mp valid).2
    have changed := others _ List.mem_append_cons_self
    exact forall_mem_replaced others (ih changed)

theorem Rewrite.sized {a b : Expr} (rewrite : Rewrite a b) (sized : a.Sized) : b.Sized := by
  refine rewrite.everywhere ?_ sized
  clear rewrite sized
  intro op other args others rewrite sized
  obtain ⟨here, below⟩ := sized_node.mp sized
  cases rewrite with
  | permuted symmetric perm => rwa [← perm.length_eq]
  | spliced associative before inner after split =>
    subst split
    have deeper := below _ List.mem_append_cons_self
    exact accepts_spliced associative here (sized_node.mp deeper).1
  | greater a b => rfl
  | greaterEqual a b => rfl
  | negated found a b => exact accepts_negated found
  | doubleNegation a =>
    have inner := (sized_node.mp (below _ (List.mem_singleton.mpr rfl))).2
    exact (sized_node.mp (inner _ (List.mem_singleton.mpr rfl))).1
  | distance a b => rfl
  | operand before after split below =>
    subst split
    simpa using here

theorem Rewrites.sized {a b : Expr} (rewrites : Rewrites a b) (sized : a.Sized) : b.Sized := by
  induction rewrites with
  | refl => exact sized
  | tail _ last ih => exact last.sized ih

theorem rewrites_canonical {e : Expr} (sized : e.Sized) : Rewrites e e.canonical := by
  induction e using Expr.induction with
  | leaf l => exact .refl
  | node op args ih =>
    obtain ⟨_, below⟩ := sized_node.mp sized
    have operands := Rewrites.operands op canonical (fun arg member => ih arg member (below arg member)) []
    rw [canonical, canonicalList_eq_map]
    exact operands.trans (rewrites_settled (operands.sized sized))

end Intension.Expr
