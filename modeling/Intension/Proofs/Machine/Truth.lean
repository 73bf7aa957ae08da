import Intension.Proofs.Machine.ShortCircuit
import Intension.Proofs.Program.Acceptance

namespace Intension

namespace Context

open Program (withJumps jumpBefore jumpFrom)

def TopTruth (stack : List Word) : Prop := ∃ v base, stack = v :: base ∧ (v = 0 ∨ v = 1)

theorem TopTruth.decided {stack : List Word} (truth : TopTruth stack) (jump : Option Jump) :
    TopTruth (decided jump stack).2 := by
  obtain ⟨v, base, rfl, value⟩ := truth
  rcases decided_cases value jump base with stays | ⟨c, passed, w, _, decides, taken⟩
  · rw [stays]
    exact ⟨v, base, rfl, value⟩
  · rw [taken]
    exact ⟨w, base, rfl, Operator.decided?_truth decides⟩

theorem perform_topTruth {input : List Word} {i : Instruction} {stack after : List Word}
    (boolean : i.isBoolean) (performed : perform input i stack = .ok after) : TopTruth after := by
  obtain ⟨_, v, rfl, truth⟩ := perform_ok performed
  exact ⟨v, _, rfl, truth boolean⟩

/-- Only a truth value has a jump, and it leaves a truth value where it leads. -/
theorem topTruth_of_taken {shortCircuit boolean : Bool} {rest : List Instruction} {stack : List Word}
    (truth : boolean → TopTruth stack)
    (taken : (decided (jumpBefore shortCircuit boolean rest) stack).1.isSome ∨ boolean) :
    TopTruth (decided (jumpBefore shortCircuit boolean rest) stack).2 := by
  cases boolean with
  | true => exact (truth rfl).decided _
  | false =>
    have noJump : jumpBefore shortCircuit false rest = none := by cases shortCircuit <;> rfl
    rw [noJump, decided_none] at taken
    rcases taken with taken | taken <;> cases taken

/-- Code whose last instruction gives a truth value ends with one on top. That instruction is passed
    over only for a truth value in its place. -/
theorem execute_topTruth {input : List Word} {shortCircuit : Bool} {code : List Instruction}
    (boolean : ∀ i ∈ code.getLast?, i.isBoolean) {passed? : Option Nat} {stack final : List Word}
    (truth : passed?.isSome ∨ code = [] → TopTruth stack)
    (ended : execute input passed? (withJumps shortCircuit code) stack = (none, final)) :
    TopTruth final := by
  -- A truth value need be on top only where instructions are passed over or none are left.
  induction code generalizing passed? stack with
  | nil =>
    have stays : execute input passed? (withJumps shortCircuit []) stack = (none, stack) := by
      cases passed? <;> rfl
    cases stays.symm.trans ended
    exact truth (.inr rfl)
  | cons i rest ih =>
    have later : ∀ i ∈ rest.getLast?, i.isBoolean := by
      intro last found
      cases rest with
      | nil => cases found
      | cons j rest => exact boolean last found
    have next {after : List Word} (top : i.isBoolean → TopTruth after) :
        (decided (jumpBefore shortCircuit i.isBoolean rest) after).1.isSome ∨ rest = [] →
          TopTruth (decided (jumpBefore shortCircuit i.isBoolean rest) after).2 := by
      rintro (taken | rfl)
      · exact topTruth_of_taken top (.inl taken)
      · exact topTruth_of_taken top (.inr (boolean i rfl))
    match passed? with
    | none =>
      rw [withJumps, execute] at ended
      split at ended
      · cases ended
      · rename_i after performed
        exact ih later (next fun boolean => perform_topTruth boolean performed) ended
    | some 0 => exact ih later (next fun _ => truth (.inl rfl)) ended
    | some (passed + 1) => exact ih later (fun _ => truth (.inl rfl)) ended

theorem last_of_resultCategory {code : List Instruction}
    (boolean : Program.resultCategory code = .boolean) :
    code ≠ [] ∧ ∀ i ∈ code.getLast?, i.isBoolean := by
  unfold Program.resultCategory at boolean
  split at boolean
  · rename_i op arity last
    refine ⟨?_, ?_⟩
    · rintro rfl
      cases last
    · intro i same
      cases last.symm.trans same
      exact decide_eq_true boolean
  · cases boolean

theorem run_topTruth {p : Program} {shortCircuit : Bool} {code : List Instruction}
    (steps : p.steps = withJumps shortCircuit code)
    (boolean : Program.resultCategory code = .boolean) (context : Context) {input : List Word}
    {v : Word} (found : (context.run p input).1 = .ok v) : v = 0 ∨ v = 1 := by
  obtain ⟨nonempty, last⟩ := last_of_resultCategory boolean
  unfold run at found
  split at found
  · cases found
  · split at found
    · cases found
    · rename_i w ended
      cases found
      rw [steps] at ended
      have truth : (none : Option Nat).isSome ∨ code = [] → TopTruth [] := by
        rintro (taken | empty)
        · cases taken
        · exact absurd empty nonempty
      obtain ⟨w, base, same, value⟩ := execute_topTruth last truth ended
      cases same
      exact value
    · cases found

end Context

namespace Program

/-- Programs are made from streams and from expressions. -/
inductive Assembled : Program → Prop
  | stream {ts : List Token} {shortCircuit : Bool} {p : Program}
    (accepted : ofTokens ts shortCircuit = .ok p) : Assembled p
  | expression {e : Expr} {shortCircuit : Bool} {p : Program}
    (accepted : ofExpr e shortCircuit = .ok p) : Assembled p

theorem Assembled.steps {p : Program} (assembled : p.Assembled) :
    ∃ shortCircuit code, p.steps = withJumps shortCircuit code ∧ p.result = resultCategory code := by
  cases assembled with
  | @stream ts shortCircuit p accepted =>
    obtain ⟨arity, code, _, rfl⟩ := ofTokens_eq_ok accepted
    exact ⟨shortCircuit, code, rfl, rfl⟩
  | @expression e shortCircuit p accepted =>
    rw [ofExpr_eq_map] at accepted
    cases lowers : ofTokens (e.tokens (streamScope e)) shortCircuit with
    | error error =>
      rw [lowers] at accepted
      cases accepted
    | ok q =>
      rw [lowers] at accepted
      cases accepted
      obtain ⟨arity, code, _, rfl⟩ := ofTokens_eq_ok lowers
      exact ⟨shortCircuit, code, rfl, rfl⟩

/-- Programs that are said to give truth values give no others. -/
theorem Assembled.truth {p : Program} (assembled : p.Assembled) (boolean : p.result = .boolean)
    (context : Context) {input : List Word} {v : Word} (found : (context.run p input).1 = .ok v) :
    v = 0 ∨ v = 1 := by
  obtain ⟨shortCircuit, code, steps, result⟩ := assembled.steps
  exact Context.run_topTruth steps (result.symm.trans boolean) context found

end Program

end Intension
