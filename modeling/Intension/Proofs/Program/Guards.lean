import Intension.Proofs.Expr.Denoted
import Intension.Proofs.Expr.Displaced
import Intension.Proofs.Program.Canonical

namespace Intension.Program

open Intension.Expr (TruthOperands Excused Settles)

theorem lazy_canonical {e : Expr} (valid : e.WellFormed) (truths : e.TruthOperands) (values : Nat → Word)
    {v : Word} (found : e.value true (Leaf.assigned values) = .ok v) :
    Settles (Excused (Leaf.assigned values) e.canonical) (e.canonical.value true (Leaf.assigned values))
      v := by
  have rewrites := Expr.rewrites_canonical valid.sized
  have value := (Expr.denotes_of_value valid found).canonical (fun _ => rfl) valid truths.booleanNegations
  exact Expr.settles_of_denotes (rewrites.wellFormed valid) (rewrites.truthOperands truths) value

/-- Where an expression has a value with short circuits, its canonical form has that value unless a sum
    or a product overflows, or the operand that decides a connective comes behind one that has none. -/
theorem evaluate_canonical_shortCircuit {e : Expr} {p : Program} (accepted : ofExpr e true = .ok p)
    (truths : e.TruthOperands) :
    ∃ q, ofExpr e.canonical true = .ok q ∧
      ∀ (values : Nat → Word) (v : Word), p.evaluate (p.tuple values) = .ok v →
        q.evaluate (q.tuple values) = .ok v ∨
          ∃ fault, Excused (Leaf.assigned values) e.canonical fault ∧
            q.evaluate (q.tuple values) = .error fault := by
  obtain ⟨q, canonical, _⟩ := ofExpr_canonical accepted true
  refine ⟨q, canonical, ?_⟩
  intro values v found
  have valid := ((ofExpr_eq_ok_iff e true p).mp accepted).1
  rw [evaluate_tuple accepted] at found
  rw [evaluate_tuple canonical]
  exact lazy_canonical valid truths values found

/-- A quotient that an inequality keeps from a zero divisor. -/
def guardedByOrder : Expr :=
  .node .or [.node .lt [.leaf (.var ⟨4, "x"⟩), .leaf (.const 1)],
    .node .gt [.leaf (.const 3), .node .div [.leaf (.const 7), .leaf (.var ⟨4, "x"⟩)]]]

theorem canonical_guardedByOrder :
    guardedByOrder.canonical = .node .or [.node .lt [.leaf (.var ⟨4, "x"⟩), .leaf (.const 1)],
      .node .lt [.node .div [.leaf (.const 7), .leaf (.var ⟨4, "x"⟩)], .leaf (.const 3)]] := by
  have rewritten : guardedByOrder.canonical = .node .or (Expr.sorted [
      .node .lt [.leaf (.var ⟨4, "x"⟩), .leaf (.const 1)],
      .node .lt [.node .div [.leaf (.const 7), .leaf (.var ⟨4, "x"⟩)], .leaf (.const 3)]]) := rfl
  rw [rewritten, Expr.sorted_pair]
  rfl

theorem evaluate_canonical_guardedByOrder :
    guardedByOrder.TruthOperands ∧ ∃ p q, ofExpr guardedByOrder true = .ok p ∧
      ofExpr guardedByOrder.canonical true = .ok q ∧
      p.evaluate (p.tuple (fun _ => 0)) = .ok 1 ∧ q.evaluate (q.tuple (fun _ => 0)) = .ok 1 := by
  have truths : guardedByOrder.TruthOperands := by
    simp [guardedByOrder, Expr.truthOperands_node, Expr.isBoolean, Operator.isBoolean, Operator.category,
      Operator.isLogical]
  obtain ⟨q, canonical, kept⟩ :=
    evaluate_canonical_shortCircuit (rfl : ofExpr guardedByOrder true = .ok _) truths
  refine ⟨truths, _, q, rfl, canonical, rfl, ?_⟩
  rcases kept (fun _ => 0) 1 rfl with value | ⟨fault, _, faults⟩
  · exact value
  · rw [canonical_guardedByOrder] at canonical
    cases canonical
    cases faults

/-- A quotient that an equation keeps from a zero divisor. -/
def guardedByEquation : Expr :=
  .node .or [.node .eq [.leaf (.var ⟨4, "x"⟩), .leaf (.const 0)],
    .node .lt [.node .div [.leaf (.const 7), .leaf (.var ⟨4, "x"⟩)], .leaf (.const 3)]]

theorem canonical_guardedByEquation :
    guardedByEquation.canonical = .node .or guardedByEquation.args.reverse := by
  have rewritten : guardedByEquation.canonical = .node .or (Expr.sorted [
      .node .eq (Expr.sorted [.leaf (.var ⟨4, "x"⟩), .leaf (.const 0)]),
      .node .lt [.node .div [.leaf (.const 7), .leaf (.var ⟨4, "x"⟩)], .leaf (.const 3)]]) := rfl
  rw [rewritten, Expr.sorted_pair, Expr.sorted_pair]
  rfl

/-- Canonical form puts the quotient before the equation, and nothing in it overflows. -/
theorem evaluate_canonical_guardedByEquation :
    guardedByEquation.TruthOperands ∧
      guardedByEquation.canonical.Everywhere (fun op _ => op ≠ .add ∧ op ≠ .mul) ∧
      ∃ p q, ofExpr guardedByEquation true = .ok p ∧ ofExpr guardedByEquation.canonical true = .ok q ∧
        p.evaluate (p.tuple (fun _ => 0)) = .ok 1 ∧
        q.evaluate (q.tuple (fun _ => 0)) = .error .divisionByZero := by
  rw [canonical_guardedByEquation]
  refine ⟨?_, ?_, _, _, rfl, rfl, rfl, rfl⟩
  · simp [guardedByEquation, Expr.truthOperands_node, Expr.isBoolean, Operator.isBoolean,
      Operator.category, Operator.isLogical]
  · simp [guardedByEquation, Expr.args, Expr.everywhere_node, Expr.Everywhere.leaf]

end Intension.Program
