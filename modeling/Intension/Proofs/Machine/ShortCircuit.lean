import Intension.Proofs.Machine.Steps
import Intension.Proofs.Program.Streams

namespace Intension

def Connective.operator : Connective → Operator
  | and => .and
  | or => .or
  | imp => .imp

namespace Context

open Program (withJumps jumpBefore jumpFrom)

theorem perform_ok {input : List Word} {i : Instruction} {stack after : List Word}
    (performed : perform input i stack = .ok after) :
    i.arity ≤ stack.length ∧
      ∃ v, after = v :: stack.drop i.arity ∧ (i.isBoolean → v = 0 ∨ v = 1) := by
  cases i with
  | push k =>
    cases performed
    exact ⟨Nat.zero_le _, k, rfl, fun boolean => by cases boolean⟩
  | load slot =>
    simp only [perform] at performed
    split at performed
    · rename_i v found
      cases performed
      exact ⟨Nat.zero_le _, v, rfl, fun boolean => by cases boolean⟩
    · cases performed
  | count members =>
    rw [perform_count] at performed
    obtain ⟨v, _, same⟩ := bind_eq_ok performed
    cases same
    exact ⟨Nat.zero_le _, v, rfl, fun boolean => by cases boolean⟩
  | apply op n =>
    simp only [perform] at performed
    split at performed
    · cases performed
    · rename_i enough
      split at performed
      · rename_i v applied
        cases performed
        exact ⟨by simp only [Instruction.arity]; omega, v, rfl,
          fun boolean => Operator.apply_truth boolean applied⟩
      · cases performed

theorem perform_connective {input : List Word} {i : Instruction} {c : Connective}
    (connective : i.connective? = some c) {xs base after : List Word} (arity : i.arity = xs.length + 1)
    {w r : Word} (decides : c.operator.decided? w = some r)
    (performed : perform input i (xs ++ w :: base) = .ok after) : after = r :: base := by
  have operator : i = .apply c.operator (xs.length + 1) := by
    cases i with
    | apply op n =>
      cases (show n = xs.length + 1 from arity)
      cases op <;> cases connective <;> rfl
    | _ => cases connective
  have operands := perform_apply input c.operator (w :: xs.reverse) base
  rw [List.length_cons, List.length_reverse, List.reverse_cons, List.reverse_reverse,
    List.append_assoc, List.singleton_append, ← operator, performed] at operands
  obtain ⟨v, applied, same⟩ := bind_eq_ok operands.symm
  cases same
  rw [Operator.apply_of_decided? decides applied]

theorem decided_cases {v : Word} (truth : v = 0 ∨ v = 1) (jump : Option Jump) (stack : List Word) :
    decided jump (v :: stack) = (none, v :: stack) ∨
      ∃ c passed w, jump = some ⟨c, passed⟩ ∧ c.operator.decided? v = some w ∧
        decided jump (v :: stack) = (some passed, w :: stack) := by
  rcases jump with _ | ⟨c, passed⟩
  · exact .inl rfl
  · cases c <;> rcases truth with rfl | rfl
    · exact .inr ⟨_, passed, _, rfl, rfl, rfl⟩
    · exact .inl rfl
    · exact .inl rfl
    · exact .inr ⟨_, passed, _, rfl, rfl, rfl⟩
    · exact .inr ⟨_, passed, _, rfl, rfl, rfl⟩
    · exact .inl rfl

/-- What the code after an instruction owes to the code with jumps. Both stacks are the same, or the
    jump has passed over instructions that the other execution has put values for. -/
structure Follows (input : List Word) (code : List Instruction) : Prop where
  level : ∀ stack final, ending (execute input none (withJumps false code) stack) = .ok final →
    ending (execute input none (withJumps true code) stack) = .ok final
  jumping : ∀ (xs base final : List Word) (w r : Word) (c : Connective) (passed n : Nat),
    jumpFrom (xs.length + 1) passed code = some ⟨c, passed + n⟩ → c.operator.decided? w = some r →
    ending (execute input none (withJumps false code) (xs ++ w :: base)) = .ok final →
    ending (execute input (some n) (withJumps true code) (r :: base)) = .ok final

theorem Follows.resume {input : List Word} {rest : List Instruction} (follows : Follows input rest)
    {boolean : Bool} {v : Word} (truth : boolean → v = 0 ∨ v = 1) {base final : List Word}
    (linear : ending (execute input none (withJumps false rest) (v :: base)) = .ok final) :
    resume input (jumpBefore true boolean rest) (withJumps true rest) (v :: base) = .ok final := by
  cases boolean with
  | false => exact (resume_none input _ _).trans (follows.level _ _ linear)
  | true =>
    have jump : jumpBefore true true rest = jumpFrom 1 0 rest := rfl
    rw [jump, Context.resume]
    have outcome := decided_cases (truth rfl) (jumpFrom 1 0 rest) base
    rcases outcome with stays | ⟨c, passed, w, found, decides, taken⟩
    · rw [stays]
      exact follows.level _ _ linear
    · rw [taken]
      exact follows.jumping [] base final v w c 0 passed (by rw [Nat.zero_add]; exact found) decides linear

theorem ending_linear (input : List Word) (i : Instruction) (rest : List Instruction)
    (stack : List Word) :
    ending (execute input none (withJumps false (i :: rest)) stack) = (do
      let stack ← perform input i stack
      ending (execute input none (withJumps false rest) stack)) := by
  rw [ending_withJumps]
  cases perform input i stack with
  | error fault => rfl
  | ok after => exact resume_none input _ after

theorem follows (input : List Word) (code : List Instruction) : Follows input code := by
  induction code with
  | nil =>
    refine ⟨fun stack final linear => linear, ?_⟩
    intro xs base final w r c passed n found
    cases found
  | cons i rest ih =>
    refine ⟨?_, ?_⟩
    · intro stack final linear
      rw [ending_linear] at linear
      obtain ⟨after, performed, linear⟩ := bind_eq_ok linear
      obtain ⟨_, v, rfl, truth⟩ := perform_ok performed
      rw [ending_withJumps, performed, ok_bind]
      exact ih.resume truth linear
    · intro xs base final w r c passed n found decides linear
      rw [ending_linear] at linear
      obtain ⟨after, performed, linear⟩ := bind_eq_ok linear
      rw [jumpFrom] at found
      split at found
      · cases found
      · rename_i enough
        split at found
        · -- The connective is reached, and both executions have its value on top.
          rename_i arity
          obtain ⟨reached, connective, same⟩ := Option.map_eq_some_iff.mp found
          injection same with same equal
          have zero : n = 0 := by omega
          subst same zero
          have top := perform_connective connective arity.symm decides performed
          obtain ⟨_, v, same, truth⟩ := perform_ok performed
          rw [same] at top
          injection top with value below
          subst value
          rw [same, below] at linear
          exact ih.resume truth linear
        · rename_i below
          obtain ⟨_, v, rfl, _⟩ := perform_ok performed
          have later := Program.le_of_jumpFrom found
          obtain ⟨m, rfl⟩ : ∃ m, n = m + 1 := ⟨n - 1, by omega⟩
          have kept : (xs ++ w :: base).drop i.arity = xs.drop i.arity ++ w :: base :=
            List.drop_append_of_le_length (by omega)
          rw [kept, ← List.cons_append] at linear
          refine ih.jumping (v :: xs.drop i.arity) base final w r c (passed + 1) m ?_ decides linear
          have height : (v :: xs.drop i.arity).length + 1 = xs.length + 1 - i.arity + 1 := by
            rw [List.length_cons, List.length_drop]
            omega
          rw [height, found, Nat.add_assoc, Nat.add_comm 1]

theorem run_ok_of_linear {code : List Instruction} {arity : Nat} {result : Category}
    {scope : List Variable} (context other : Context) {input : List Word} {v : Word}
    (linear : (context.run ⟨withJumps false code, arity, result, scope⟩ input).1 = .ok v) :
    (other.run ⟨withJumps true code, arity, result, scope⟩ input).1 = .ok v := by
  by_cases length : input.length = arity
  · rw [run_eq_ending length] at linear ⊢
    obtain ⟨stack, ended, same⟩ := bind_eq_ok linear
    rw [(follows input code).level [] stack ended]
    exact same
  · unfold run at linear
    rw [if_pos length] at linear
    cases linear

end Context

namespace Program

open Context

theorem instruction_withJumps (shortCircuit : Bool) (code : List Instruction) :
    (withJumps shortCircuit code).map Step.instruction = code := by
  induction code with
  | nil => rfl
  | cons i rest ih => exact congrArg (i :: ·) ih

/-- Jumps leave the code of a stream and its refusals as they are. They keep every value that the
    code without jumps has, and have a fault only where that code has one. -/
theorem ofTokens_shortCircuit (ts : List Token) :
    (∃ error, ofTokens ts false = .error error ∧ ofTokens ts true = .error error) ∨
      ∃ linear short, ofTokens ts false = .ok linear ∧ ofTokens ts true = .ok short ∧
        short.steps.map Step.instruction = linear.steps.map Step.instruction ∧
        short.arity = linear.arity ∧ short.result = linear.result ∧ short.scope = linear.scope ∧
        ∀ (context other : Context) (input : List Word),
          (∀ v, (context.run linear input).1 = .ok v → (other.run short input).1 = .ok v) ∧
          ∀ fault, (other.run short input).1 = .error fault →
            ∃ cause, (context.run linear input).1 = .error cause := by
  rw [ofTokens_eq_map, ofTokens_eq_map]
  cases lowered ts with
  | error error => exact .inl ⟨error, rfl, rfl⟩
  | ok pair =>
    obtain ⟨arity, code⟩ := pair
    refine .inr ⟨_, _, rfl, rfl, ?_, rfl, rfl, rfl, ?_⟩
    · rw [instruction_withJumps, instruction_withJumps]
    · intro context other input
      refine ⟨fun v linear => run_ok_of_linear context other linear, ?_⟩
      intro fault short
      cases linear : (context.run ⟨withJumps false code, arity, resultCategory code, []⟩ input).1 with
      | error cause => exact ⟨cause, rfl⟩
      | ok v =>
        rw [run_ok_of_linear context other linear] at short
        cases short

end Program

end Intension
