import Intension.Proofs.Expr.Category
import Intension.Proofs.Expr.Denoted
import Intension.Proofs.Machine.Truth
import Intension.Proofs.Program.Canonical

namespace Intension

namespace Expr

theorem WellFormed.category? {e : Expr} (valid : e.WellFormed) :
    e.category? = some (e.category?.getD .integer) := by
  cases e with
  | leaf l =>
    cases l with
    | wild w => exact absurd (List.mem_singleton.mpr rfl) (valid.concrete w)
    | _ => rfl
  | node op args => rfl

end Expr

namespace Program

theorem result_ofExpr {e : Expr} {p : Program} {shortCircuit : Bool}
    (accepted : ofExpr e shortCircuit = .ok p) : e.category? = some p.result := by
  obtain ⟨valid, n, _, rfl⟩ := (ofExpr_eq_ok_iff e shortCircuit p).mp accepted
  exact valid.category?

theorem run_truth {e : Expr} {p : Program} {shortCircuit : Bool}
    (accepted : ofExpr e shortCircuit = .ok p) (boolean : p.result = .boolean) (context : Context)
    {input : List Word} {v : Word} (found : (context.run p input).1 = .ok v) : v = 0 ∨ v = 1 :=
  (Assembled.expression accepted).truth boolean context found

/-- The canonical form of an expression is of the same category, with a program of the same result,
    unless it drops double negations of something that is no truth value. Where no negation is of such
    a thing, its program gives no other values either. -/
theorem category_canonical {e : Expr} (sized : e.Sized) :
    (e.canonical.category? = e.category? ↔ e.KeepsCategory) ∧
      ∀ shortCircuit p, ofExpr e shortCircuit = .ok p →
        ∃ q, ofExpr e.canonical shortCircuit = .ok q ∧ (q.result = p.result ↔ e.KeepsCategory) ∧
          (e.KeepsCategory → p.result = .boolean → ∀ (context : Context) input v,
            (context.run q input).1 = .ok v → v = 0 ∨ v = 1) ∧
          (e.BooleanNegations → ∀ (values : Nat → Word) v w, p.evaluate (p.tuple values) = .ok v →
            q.evaluate (q.tuple values) = .ok w → w = v) := by
  refine ⟨Expr.category?_canonical_iff sized, ?_⟩
  intro shortCircuit p accepted
  obtain ⟨q, canonical, _⟩ := ofExpr_canonical accepted shortCircuit
  have kept : q.result = p.result ↔ e.KeepsCategory := by
    rw [← Expr.category?_canonical_iff sized, result_ofExpr canonical, result_ofExpr accepted,
      Option.some.injEq]
  refine ⟨q, canonical, kept, ?_, ?_⟩
  · intro keeps boolean context input v found
    exact run_truth canonical ((kept.mpr keeps).trans boolean) context found
  · intro guarded values v w found result
    rw [evaluate_tuple accepted] at found
    rw [evaluate_tuple canonical] at result
    have valid := ((ofExpr_eq_ok_iff e shortCircuit p).mp accepted).1
    exact Expr.value_canonical (fun _ => rfl) valid guarded found result

def twiceNegated (e : Expr) : Expr := .node .not [.node .not [e]]

def belowThree (e : Expr) : Expr := .node .lt [e, .leaf (.const 3)]

theorem category_canonical_twiceNegated_test :
    (twiceNegated (belowThree (.leaf (.var ⟨4, "x"⟩)))).canonical.category? = some .boolean ∧
      ∃ q, ofExpr (twiceNegated (belowThree (.leaf (.var ⟨4, "x"⟩)))).canonical true = .ok q ∧
        q.result = .boolean ∧
        (∀ (context : Context) input v, (context.run q input).1 = .ok v → v = 0 ∨ v = 1) ∧
        ∀ w, q.evaluate (q.tuple (fun _ => 2)) = .ok w → w = 1 := by
  have valid : (twiceNegated (belowThree (.leaf (.var ⟨4, "x"⟩)))).WellFormed :=
    ((ofExpr_eq_ok_iff _ true _).mp rfl).1
  have keeps : (twiceNegated (belowThree (.leaf (.var ⟨4, "x"⟩)))).KeepsCategory := by
    intro n a same
    cases n with
    | zero =>
      cases same
      rfl
    | succ n => cases same
  obtain ⟨category, programs⟩ := category_canonical valid.sized
  have guarded : (twiceNegated (belowThree (.leaf (.var ⟨4, "x"⟩)))).BooleanNegations := by
    simp [twiceNegated, belowThree, Expr.booleanNegations_node, Expr.category?, Operator.category]
  obtain ⟨q, canonical, result, truth, values⟩ := programs true _ rfl
  refine ⟨category.mpr keeps, q, canonical, result.mpr keeps, truth keeps rfl, ?_⟩
  exact fun w value => values guarded (fun _ => 2) 1 w rfl value

/-- A disjunction that its first operand always decides. -/
def decidedQuotient : Expr :=
  .node .or [.node .eq [.leaf (.const 0), .leaf (.const 0)],
    belowThree (.node .div [.leaf (.const 7), .leaf (.const 0)])]

theorem canonical_decidedQuotient :
    decidedQuotient.canonical = .node .or [
      belowThree (.node .div [.leaf (.const 7), .leaf (.const 0)]),
      .node .eq [.leaf (.const 0), .leaf (.const 0)]] := by
  have rewritten : decidedQuotient.canonical = .node .or (Expr.sorted [
      .node .eq (Expr.sorted [.leaf (.const 0), .leaf (.const 0)]),
      belowThree (.node .div [.leaf (.const 7), .leaf (.const 0)])]) := rfl
  rw [rewritten, Expr.sorted_pair, Expr.sorted_pair]
  rfl

/-- The double negation of a variable always has a truth value, and its canonical form is the variable.
    A disjunction can always be true when its canonical form, of the same category, has no value. -/
theorem category_canonical_twiceNegated_variable :
    (twiceNegated (.leaf (.var ⟨4, "x"⟩))).Sized ∧
      (twiceNegated (.leaf (.var ⟨4, "x"⟩))).category? = some .boolean ∧
      (twiceNegated (.leaf (.var ⟨4, "x"⟩))).canonical.category? = some .integer ∧
      (∃ p q, ofExpr (twiceNegated (.leaf (.var ⟨4, "x"⟩))) true = .ok p ∧
        ofExpr (twiceNegated (.leaf (.var ⟨4, "x"⟩))).canonical true = .ok q ∧
        p.result = .boolean ∧ q.result = .integer ∧
        (∀ v, p.evaluate [v] = .ok 0 ∨ p.evaluate [v] = .ok 1) ∧ q.evaluate [5] = .ok 5) ∧
      ∃ p q, ofExpr decidedQuotient true = .ok p ∧ ofExpr decidedQuotient.canonical true = .ok q ∧
        p.arity = 0 ∧ p.evaluate [] = .ok 1 ∧ q.evaluate [] = .error .divisionByZero := by
  have truth (v : Word) : Word.ofBool (decide (Word.ofBool (decide (v = 0)) = 0)) = 0 ∨
      Word.ofBool (decide (Word.ofBool (decide (v = 0)) = 0)) = 1 := Word.ofBool_truth _
  have valid : (twiceNegated (.leaf (.var ⟨4, "x"⟩))).WellFormed :=
    ((ofExpr_eq_ok_iff _ true _).mp rfl).1
  refine ⟨valid.sized, rfl, rfl, ⟨_, _, rfl, rfl, rfl, rfl, ?_, rfl⟩, ?_⟩
  · intro v
    rcases truth v with zero | one
    · exact .inl (congrArg Except.ok zero)
    · exact .inr (congrArg Except.ok one)
  · rw [canonical_decidedQuotient]
    exact ⟨_, _, rfl, rfl, rfl, rfl, rfl⟩

end Program

end Intension
