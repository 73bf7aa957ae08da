import Intension.Proofs.Expr.Measure
import Intension.Proofs.Program.Canonical

namespace Intension

def Leaf.wild? : Leaf → Option Wildcard
  | wild w => some w
  | _ => none

namespace Expr

/-- The wildcards in an expression from left to right, with repeats. -/
def wildcards (e : Expr) : List Wildcard := e.leaves.filterMap Leaf.wild?

/-- What canonical form leaves as it is: arities, and every leaf but constants. It only makes
    expressions smaller. -/
structure Conserves (e reduced : Expr) : Prop where
  sized : reduced.Sized
  occurrences : reduced.occurrences.Perm e.occurrences
  parameters : reduced.parameters.Perm e.parameters
  wildcards : reduced.wildcards.Perm e.wildcards
  size : reduced.size ≤ e.size
  height : reduced.height ≤ e.height

theorem Rewrites.conserves {a b : Expr} (rewrites : Rewrites a b) (sized : a.Sized) :
    Conserves a b where
  sized := rewrites.sized sized
  occurrences := (rewrites.filterMap_leaves (fun _ => rfl)).symm
  parameters := (rewrites.filterMap_leaves (fun _ => rfl)).symm
  wildcards := (rewrites.filterMap_leaves (fun _ => rfl)).symm
  size := rewrites.size_le
  height := rewrites.height_le

end Expr

namespace Program

/-- Canonical form loses and invents no leaf but a constant, and the canonical form of an expression
    that has a program has one over the same slots. -/
theorem canonical_conserves (e : Expr) :
    (e.Sized → e.Conserves e.canonical) ∧
      ∀ shortCircuit p, ofExpr e shortCircuit = .ok p →
        ∃ q, ofExpr e.canonical shortCircuit = .ok q ∧ q.arity = p.arity ∧ q.scope.Perm p.scope := by
  constructor
  · intro sized
    exact (Expr.rewrites_canonical sized).conserves sized
  · intro shortCircuit p accepted
    obtain ⟨q, canonical, arity, perm⟩ := ofExpr_canonical accepted shortCircuit
    exact ⟨q, canonical, arity, perm.symm⟩

/-- A conjunction within another, beside a negated membership test. -/
def nestedConjunction : Expr :=
  .node .and [
    .node .and [.node .gt [.leaf (.var ⟨7, "y"⟩), .node .neg [.leaf (.const 3)]],
      .node .eq [.leaf (.var ⟨4, "x"⟩), .leaf (.var ⟨7, "y"⟩)]],
    .node .not [.node .mem [.leaf (.var ⟨4, "x"⟩),
      .node .set [.leaf (.var ⟨2, "z"⟩), .leaf (.const 5)]]]]

theorem canonical_conserves_nestedConjunction :
    nestedConjunction.Sized ∧ nestedConjunction.Conserves nestedConjunction.canonical ∧
      ∃ q, ofExpr nestedConjunction.canonical true = .ok q ∧ q.arity = 3 ∧
        q.scope.Perm [⟨7, "y"⟩, ⟨4, "x"⟩, ⟨2, "z"⟩] := by
  have accepted : ofExpr nestedConjunction true = .ok _ := rfl
  have sized : nestedConjunction.Sized := ((ofExpr_eq_ok_iff _ true _).mp accepted).1.sized
  obtain ⟨conserved, programs⟩ := canonical_conserves nestedConjunction
  exact ⟨sized, conserved sized, programs true _ accepted⟩

end Program

end Intension
