import Intension.Operator.Value
import Intension.Proofs.Outcome

namespace Intension

theorem Word.ofBool_truth (b : Bool) : Word.ofBool b = 0 ∨ Word.ofBool b = 1 := by
  cases b
  · exact .inl rfl
  · exact .inr rfl

/-- The value of a membership test. A set of more members than there are positive words cannot be
    counted. -/
def membership (expected : Bool) (v : Word) (members : List Word) : Except Fault Word := do
  let _ ← Operator.inRange .set members.length
  return Word.ofBool (members.contains v == expected)

theorem membership_truth {expected : Bool} {v w : Word} {members : List Word}
    (found : membership expected v members = .ok w) : w = 0 ∨ w = 1 := by
  obtain ⟨_, _, same⟩ := bind_eq_ok found
  cases same
  exact Word.ofBool_truth _

namespace Operator

/-- The value of a connective that its first operand decides. -/
def decided? : Operator → Word → Option Word
  | and, v => if v = 0 then some 0 else none
  | or, v => if v ≠ 0 then some 1 else none
  | imp, v => if v = 0 then some 1 else none
  | _, _ => none

theorem apply_truth {op : Operator} (boolean : op.isBoolean) {vs : List Word} {v : Word}
    (applied : op.apply vs = .ok v) : v = 0 ∨ v = 1 := by
  unfold apply at applied
  split at applied <;> first | contradiction | (cases applied; exact Word.ofBool_truth _)

theorem decided?_truth {op : Operator} {v w : Word} (decides : op.decided? v = some w) :
    w = 0 ∨ w = 1 := by
  unfold decided? at decides
  split at decides <;> first
    | contradiction
    | (split at decides <;> first | contradiction | (cases decides; simp))

theorem append_singleton_eq_cons {α : Type} (vs : List α) (v : α) :
    ∃ first others, vs ++ [v] = first :: others ∧ (first :: others).dropLast = vs := by
  obtain ⟨first, others, split⟩ := List.exists_cons_of_ne_nil (List.append_ne_nil_of_right_ne_nil vs
    (List.cons_ne_nil v []))
  exact ⟨first, others, split, by rw [← split, List.dropLast_concat]⟩

theorem apply_test {op : Operator} (test : op = mem ∨ op = notMem) (v count : Word)
    (members : List Word) :
    op.apply (v :: (members ++ [count])) =
      .ok (Word.ofBool (members.contains v == decide (op = mem))) := by
  obtain ⟨first, others, split, kept⟩ := append_singleton_eq_cons members count
  rw [split]
  rcases test with rfl | rfl
  · simp only [apply, kept, decide_true, beq_true]
  · simp only [apply, kept, reduceCtorEq, decide_false, beq_false]

theorem apply_of_decided? {op : Operator} {v w r : Word} (decides : op.decided? v = some w)
    {vs : List Word} (applied : op.apply (v :: vs) = .ok r) : r = w := by
  cases op with
  | and =>
    have zero : v = 0 ∧ w = 0 := by simpa [decided?, eq_comm] using decides
    simp only [apply, List.all_cons, zero.1] at applied
    cases applied
    rw [zero.2]
    rfl
  | or =>
    have nonzero : v ≠ 0 ∧ w = 1 := by simpa [decided?, eq_comm] using decides
    simp only [apply, List.any_cons, ne_eq, nonzero.1, not_false_eq_true, decide_true,
      Bool.true_or] at applied
    cases applied
    rw [nonzero.2]
    rfl
  | imp =>
    have zero : v = 0 ∧ w = 1 := by simpa [decided?, eq_comm] using decides
    rcases vs with _ | ⟨b, _ | ⟨c, vs⟩⟩
    · cases applied
    · simp only [apply, zero.1, true_or, decide_true] at applied
      cases applied
      rw [zero.2]
      rfl
    · cases applied
  | _ => cases decides

end Operator

end Intension
