import Intension.Proofs.Expr.Normal
import Intension.Proofs.Expr.Rewrite

namespace Intension.Expr

theorem canonical_node (op : Operator) (args : List Expr) :
    (Expr.node op args).canonical = settled op (args.map canonical) := by
  rw [canonical, canonicalList_eq_map]

theorem settled_symmetric {op : Operator} (symmetric : op.isSymmetric) (args : List Expr) :
    settled op args = .node op (sorted (merged op args)) := by
  cases op <;> first | rfl | cases symmetric

theorem merged_perm (op : Operator) {args others : List Expr} (perm : args.Perm others) :
    (merged op args).Perm (merged op others) := by
  unfold merged
  split
  · exact perm.flatMap_right (splice op)
  · exact perm

theorem symmetric_of_associative {op : Operator} (associative : op.isAssociative) : op.isSymmetric := by
  cases op <;> first | rfl | cases associative

theorem settled_spliced {op : Operator} (associative : op.isAssociative) (before inner after : List Expr) :
    settled op (before ++ settled op inner :: after) = settled op (before ++ inner ++ after) := by
  have symmetric := symmetric_of_associative associative
  have below : splice op (settled op inner) = sorted (merged op inner) := by
    rw [settled_symmetric symmetric, splice, if_pos rfl]
  rw [settled_symmetric symmetric (before ++ inner ++ after), settled_symmetric symmetric]
  congr 1
  apply sorted_congr
  simp only [merged, associative, ite_true, List.flatMap_append, List.flatMap_cons, below,
    List.append_assoc]
  exact ((sorted_perm _).append_right _).append_left _

theorem settled_greater (a b : Expr) : settled .gt [a, b] = settled .lt [b, a] := rfl

theorem settled_greaterEqual (a b : Expr) : settled .ge [a, b] = settled .le [b, a] := rfl

theorem sorted_sorted (es : List Expr) : sorted (sorted es) = sorted es :=
  sorted_of_ascending (ascending_sorted es)

theorem settled_negated {test opposite : Operator} (found : test.negation? = some opposite) (a b : Expr) :
    settled .not [settled test [a, b]] = settled opposite [a, b] := by
  obtain ⟨c, d, order⟩ := List.length_eq_two.mp (sorted_perm [a, b]).length_eq
  have again := sorted_sorted [a, b]
  rw [order] at again
  have ordered {op : Operator} (symmetric : op.isSymmetric) (single : merged op [a, b] = [a, b]) :
      settled op [a, b] = .node op [c, d] := by
    rw [settled_symmetric symmetric, single, order]
  cases test with
  | eq =>
    cases found
    rw [ordered rfl rfl, ordered rfl rfl]
    exact congrArg (Expr.node .ne) again
  | ne =>
    cases found
    rw [ordered rfl rfl, ordered rfl rfl]
    exact congrArg (Expr.node .eq) again
  | _ => cases found <;> rfl

theorem settled_distance (a b : Expr) : settled .abs [settled .sub [a, b]] = settled .dist [a, b] := rfl

theorem settled_opposite {k n : Word} (found : Word.ofInt? (-k.toInt) = some n) :
    settled .neg [.leaf (.const k)] = .leaf (.const n) := by
  simp [settled, simplified?, found]

/-- A negation settles to an involution on normal forms. -/
theorem settled_doubleNegation {e : Expr} (normal : e.Normal) (sized : e.Sized) :
    settled .not [settled .not [e]] = e := by
  cases e with
  | leaf l => rfl
  | node f args =>
    obtain ⟨unchanged, _⟩ := normal_node.mp normal
    have arity := (sized_node.mp sized).1
    by_cases double : f = .not
    · subst double
      obtain ⟨a, rfl⟩ := List.length_eq_one_iff.mp (of_decide_eq_true arity)
      exact settled_of_unchanged unchanged
    · cases found : f.negation? with
      | none =>
        have kept : settled .not [.node f args] = .node .not [.node f args] := by
          have simple : simplified? .not [.node f args] = none :=
            simplified?_negation.mpr ⟨fun same => absurd same double, by simp [found]⟩
          rw [settled, simple]
          rfl
        rw [kept]
        rfl
      | some opposite =>
        by_cases pair : args.length = 2
        · obtain ⟨a, b, rfl⟩ := List.length_eq_two.mp pair
          have back : opposite.negation? = some f := by cases f <;> cases found <;> rfl
          have settles := settled_negated found a b
          rw [settled_of_unchanged unchanged] at settles
          rw [settles, settled_negated back, settled_of_unchanged unchanged]
        · have kept : settled .not [.node f args] = .node .not [.node f args] := by
            have simple : simplified? .not [.node f args] = none :=
              simplified?_negation.mpr ⟨fun same => absurd same double, fun _ => pair⟩
            rw [settled, simple]
            rfl
          rw [kept]
          rfl

theorem Rewrite.canonical_eq {a b : Expr} (rewrite : Rewrite a b) (sized : a.Sized) :
    a.canonical = b.canonical := by
  induction rewrite with
  | permuted symmetric perm =>
    rw [canonical_node, canonical_node, settled_symmetric symmetric, settled_symmetric symmetric]
    exact congrArg _ (sorted_congr (merged_perm _ (perm.map canonical)))
  | spliced associative before inner after split =>
    subst split
    rw [canonical_node, canonical_node, List.map_append, List.map_cons, canonical_node,
      settled_spliced associative, List.map_append, List.map_append]
  | greater a b =>
    rw [canonical_node, canonical_node]
    exact settled_greater a.canonical b.canonical
  | greaterEqual a b =>
    rw [canonical_node, canonical_node]
    exact settled_greaterEqual a.canonical b.canonical
  | negated found a b =>
    rw [canonical_node, canonical_node, List.map_singleton, canonical_node]
    exact settled_negated found a.canonical b.canonical
  | doubleNegation a =>
    have inner := (sized_node.mp sized).2 _ (List.mem_singleton.mpr rfl)
    have operand := (sized_node.mp inner).2 a (List.mem_singleton.mpr rfl)
    rw [canonical_node, List.map_singleton, canonical_node, List.map_singleton]
    exact settled_doubleNegation (normal_canonical a) ((rewrites_canonical operand).sized operand)
  | distance a b =>
    rw [canonical_node, canonical_node, List.map_singleton, canonical_node]
    exact settled_distance a.canonical b.canonical
  | opposite found =>
    rw [canonical_node]
    exact settled_opposite found
  | operand before after split below ih =>
    subst split
    have operand := (sized_node.mp sized).2 _ List.mem_append_cons_self
    rw [canonical_node, canonical_node, List.map_append, List.map_cons, ih operand, List.map_append,
      List.map_cons]

/-- The least equivalence, among expressions whose operators have as many operands as they take, that
    holds between both sides of every rule at any place. -/
def Alike (a b : {e : Expr // e.Sized}) : Prop := Relation.EqvGen (fun c d => Rewrite c.1 d.1) a b

theorem alike_of_rewrites {a b : Expr} (rewrites : Rewrites a b) (sized : a.Sized) :
    Alike ⟨a, sized⟩ ⟨b, rewrites.sized sized⟩ := by
  induction rewrites with
  | refl => exact .refl _
  | tail before last ih => exact .trans _ _ _ ih (.rel _ _ last)

theorem canonical_eq_of_alike {a b : {e : Expr // e.Sized}} (alike : Alike a b) :
    a.1.canonical = b.1.canonical := by
  induction alike with
  | rel a b rewrite => exact rewrite.canonical_eq a.2
  | refl a => rfl
  | symm a b _ ih => exact ih.symm
  | trans a b c _ _ first second => exact first.trans second

theorem alike_of_canonical_eq {a b : {e : Expr // e.Sized}} (same : a.1.canonical = b.1.canonical) :
    Alike a b := by
  have left := alike_of_rewrites (rewrites_canonical a.2) a.2
  have right := alike_of_rewrites (rewrites_canonical b.2) b.2
  have middle : (⟨a.1.canonical, (rewrites_canonical a.2).sized a.2⟩ : {e : Expr // e.Sized}) =
      ⟨b.1.canonical, (rewrites_canonical b.2).sized b.2⟩ := Subtype.ext same
  rw [middle] at left
  exact .trans _ _ _ left (.symm _ _ right)

/-- Alike operands make alike expressions. -/
theorem Alike.node {op : Operator} {args others : List {e : Expr // e.Sized}}
    (each : List.Forall₂ Alike args others) (sized : Sized (.node op (args.map Subtype.val)))
    (other : Sized (.node op (others.map Subtype.val))) :
    Alike ⟨.node op (args.map Subtype.val), sized⟩ ⟨.node op (others.map Subtype.val), other⟩ := by
  have operands : (args.map Subtype.val).map canonical = (others.map Subtype.val).map canonical := by
    clear sized other
    induction each with
    | nil => rfl
    | cons first _ ih => simp only [List.map_cons, canonical_eq_of_alike first, ih]
  apply alike_of_canonical_eq
  rw [canonical_node, canonical_node, operands]

/-- Canonical form decides whether rules lead from one expression to another in either direction. -/
theorem canonical_eq_iff_alike (a b : {e : Expr // e.Sized}) :
    a.1.canonical = b.1.canonical ↔ Alike a b := by
  constructor
  · exact alike_of_canonical_eq
  · exact canonical_eq_of_alike

end Intension.Expr
