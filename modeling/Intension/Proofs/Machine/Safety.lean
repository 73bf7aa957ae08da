import Intension.Proofs.Machine.ShortCircuit
import Intension.Proofs.Operator.Gives
import Intension.Proofs.Program.Balance

namespace Intension

/-- The faults that operators and counts have on words. -/
def Fault.Arithmetic (fault : Fault) : Prop := fault.Undefined ∨ ∃ op, fault = .overflow op

theorem Operator.apply_error {op : Operator} (plain : Expr.Plain op) {vs : List Word}
    (accepted : op.arity.accepts vs.length) {fault : Fault} (found : op.apply vs = .error fault) :
    fault.Arithmetic := by
  have realizes := apply_realizes plain accepted
  rw [found] at realizes
  generalize op.exact (vs.map Int64.toInt) = exact at realizes
  cases realizes with
  | undefined undefined => exact .inl undefined
  | overflow op _ => exact .inr ⟨op, rfl⟩

theorem Instruction.Sound.applies {slots : Nat} {op : Operator} {vs : List Word}
    (sound : (Instruction.apply op vs.length).Sound slots) :
    (∃ v, op.apply vs = .ok v) ∨ ∃ fault : Fault, fault.Arithmetic ∧ op.apply vs = .error fault := by
  generalize length : vs.length = arity at sound
  cases sound with
  | test membership members =>
    rcases vs with _ | ⟨v, _ | ⟨w, ws⟩⟩
    · simp at length
    · simp at length
    · rcases membership with rfl | rfl
      · exact .inl ⟨_, rfl⟩
      · exact .inl ⟨_, rfl⟩
  | operator plain accepted =>
    rw [← length] at accepted
    cases found : op.apply vs with
    | ok v => exact .inl ⟨v, rfl⟩
    | error fault => exact .inr ⟨fault, Operator.apply_error plain accepted found, rfl⟩

namespace Context

open Program (Balanced withJumps jumpBefore jumpFrom balanced_cons)

/-- A sound instruction that has its operands leaves a value in their place, or has a fault of its
    operator. -/
theorem perform_sound {input : List Word} {i : Instruction} (sound : i.Sound input.length)
    {stack : List Word} (enough : i.arity ≤ stack.length) :
    (∃ v, perform input i stack = .ok (v :: stack.drop i.arity)) ∨
      ∃ fault : Fault, fault.Arithmetic ∧ perform input i stack = .error fault := by
  cases i with
  | push k => exact .inl ⟨k, rfl⟩
  | load slot =>
    cases sound with
    | load bound => exact .inl ⟨_, perform_load bound stack⟩
  | count members =>
    rw [perform_count]
    cases found : Operator.inRange .set members with
    | ok v => exact .inl ⟨v, rfl⟩
    | error fault => exact .inr ⟨fault, .inr ⟨.set, Operator.inRange_error found⟩, rfl⟩
  | apply op arity =>
    have length : (stack.take arity).reverse.length = arity := by
      rw [List.length_reverse, List.length_take]
      exact Nat.min_eq_left enough
    have operands := perform_apply input op (stack.take arity).reverse (stack.drop arity)
    rw [List.reverse_reverse, List.take_append_drop, length] at operands
    rw [operands]
    rw [← length] at sound
    rcases sound.applies with ⟨v, applied⟩ | ⟨fault, arithmetic, applied⟩
    · exact .inl ⟨v, by rw [applied]; rfl⟩
    · exact .inr ⟨fault, arithmetic, by rw [applied]; rfl⟩

/-- The ends of an execution that has not got stuck. -/
def Orderly : Option Fault × List Word → Prop
  | (none, stack) => stack.length = 1
  | (some fault, _) => fault.Arithmetic

theorem decided_jump (jump : Option Jump) (stack : List Word) :
    decided jump stack = (none, stack) ∨
      ∃ c passed v w base, jump = some ⟨c, passed⟩ ∧ stack = v :: base ∧
        decided jump stack = (some passed, w :: base) := by
  unfold decided
  split
  · rename_i passed v base
    split
    · exact .inr ⟨_, passed, v, v, base, rfl, rfl, rfl⟩
    · exact .inl rfl
  · rename_i passed v base
    split
    · exact .inr ⟨_, passed, v, v, base, rfl, rfl, rfl⟩
    · exact .inl rfl
  · rename_i passed v base
    split
    · exact .inr ⟨_, passed, v, 1, base, rfl, rfl, rfl⟩
    · exact .inl rfl
  · exact .inl rfl

/-- What an execution owes to balanced code, from its start or from behind the connective that a jump
    leads to. -/
structure Runs (input : List Word) (shortCircuit : Bool) (code : List Instruction) : Prop where
  level : ∀ stack, Balanced input.length stack.length code →
    Orderly (execute input none (withJumps shortCircuit code) stack)
  jumping : ∀ stack passed, passed < code.length →
    Balanced input.length stack.length (code.drop (passed + 1)) →
    Orderly (execute input (some passed) (withJumps shortCircuit code) stack)

theorem Runs.resume {input : List Word} {shortCircuit : Bool} {rest : List Instruction}
    (runs : Runs input shortCircuit rest) (boolean : Bool) {stack : List Word}
    (balanced : Balanced input.length stack.length rest) :
    Orderly (execute input (decided (jumpBefore shortCircuit boolean rest) stack).1
      (withJumps shortCircuit rest) (decided (jumpBefore shortCircuit boolean rest) stack).2) := by
  rcases decided_jump (jumpBefore shortCircuit boolean rest) stack with
    stays | ⟨c, passed, v, w, base, jump, rfl, taken⟩
  · rw [stays]
    exact runs.level stack balanced
  · rw [taken]
    have found : jumpFrom 1 0 rest = some ⟨c, 0 + passed⟩ := by
      rw [jumpBefore] at jump
      split at jump
      · rw [jump, Nat.zero_add]
      · cases jump
    rw [List.length_cons, Nat.add_comm] at balanced
    obtain ⟨inside, behind⟩ := balanced.behind found
    exact runs.jumping (w :: base) passed inside behind

theorem runs (input : List Word) (shortCircuit : Bool) (code : List Instruction) :
    Runs input shortCircuit code := by
  induction code with
  | nil =>
    refine ⟨?_, fun _ _ inside => absurd inside (Nat.not_lt_zero _)⟩
    intro stack balanced
    generalize height : stack.length = height at balanced
    cases balanced
    exact height
  | cons i rest ih =>
    refine ⟨?_, ?_⟩
    · intro stack balanced
      obtain ⟨sound, enough, others⟩ := balanced_cons.mp balanced
      rw [withJumps, execute]
      rcases perform_sound sound enough with ⟨v, performed⟩ | ⟨fault, arithmetic, performed⟩
      · rw [performed]
        refine ih.resume i.isBoolean ?_
        rw [List.length_cons, List.length_drop]
        exact others
      · rw [performed]
        exact arithmetic
    · intro stack passed inside balanced
      cases passed with
      | zero => exact ih.resume i.isBoolean balanced
      | succ passed => exact ih.jumping stack passed (Nat.lt_of_succ_lt_succ inside) balanced

theorem run_balanced {p : Program} {shortCircuit : Bool} {code : List Instruction}
    (steps : p.steps = withJumps shortCircuit code) (balanced : Balanced p.arity 0 code)
    {input : List Word} (length : input.length = p.arity) (context : Context) :
    (∃ v, context.run p input = (.ok v, ⟨[v]⟩)) ∨
      ∃ fault after, Fault.Arithmetic fault ∧ context.run p input = (.error fault, after) := by
  rw [← length] at balanced
  have orderly := (runs input shortCircuit code).level [] balanced
  unfold run
  rw [if_neg (not_not.mpr length), steps]
  generalize execute input none (withJumps shortCircuit code) [] = ending at orderly
  rcases ending with ⟨_ | fault, stack⟩
  · obtain ⟨v, rfl⟩ := List.length_eq_one_iff.mp orderly
    exact .inl ⟨v, rfl⟩
  · exact .inr ⟨fault, ⟨stack⟩, orderly, rfl⟩

end Context

namespace Program

theorem getElem?_withJumps (shortCircuit : Bool) (code : List Instruction) (position : Nat) :
    (withJumps shortCircuit code)[position]? = code[position]?.map
      (fun i => ⟨i, jumpBefore shortCircuit i.isBoolean (code.drop (position + 1))⟩) := by
  induction code generalizing position with
  | nil => rfl
  | cons i rest ih =>
    cases position with
    | zero => rfl
    | succ position => exact ih position

/-- A jump leads to the position behind a connective that comes after it. -/
theorem target_of_withJumps {shortCircuit : Bool} {code : List Instruction} {position : Nat} {s : Step}
    {jump : Jump} (step : (withJumps shortCircuit code)[position]? = some s)
    (jumps : s.jump? = some jump) :
    jump.target position ≤ code.length ∧
      code[jump.target position - 1]?.bind Instruction.connective? = some jump.connective := by
  rw [getElem?_withJumps] at step
  obtain ⟨i, _, rfl⟩ := Option.map_eq_some_iff.mp step
  have found : jumpFrom 1 0 (code.drop (position + 1)) = some ⟨jump.connective, 0 + jump.passed⟩ := by
    simp only [jumpBefore] at jumps
    split at jumps
    · rw [jumps, Nat.zero_add]
    · cases jumps
  have connective := connective_of_jumpFrom found
  rw [List.getElem?_drop] at connective
  have last : jump.target position - 1 = position + 1 + jump.passed := by
    rw [Jump.target]
    omega
  rw [last]
  refine ⟨?_, connective⟩
  obtain ⟨i, inside, _⟩ := Option.bind_eq_some_iff.mp connective
  obtain ⟨bound, _⟩ := List.getElem?_eq_some_iff.mp inside
  rw [Jump.target]
  omega

/-- The program of a stream never gets stuck: its instructions find their slots and operands, its jumps
    lead forward and not past its end, and on a tuple of its arity it ends with one value on the stack
    or a fault of an operator. -/
theorem run_orderly {ts : List Token} {shortCircuit : Bool} {p : Program}
    (accepted : ofTokens ts shortCircuit = .ok p) :
    (∀ i ∈ p.instructions, i.Sound p.arity) ∧
      (∀ position s jump, p.steps[position]? = some s → s.jump? = some jump →
        position + 1 < jump.target position ∧ jump.target position ≤ p.steps.length ∧
          p.instructions[jump.target position - 1]?.bind Instruction.connective? =
            some jump.connective) ∧
      ∀ (context : Context) (input : List Word),
        (input.length ≠ p.arity →
          (context.run p input).1 = .error (.tupleLength p.arity input.length)) ∧
        (input.length = p.arity →
          (∃ v, context.run p input = (.ok v, ⟨[v]⟩)) ∨
            ∃ fault after, Fault.Arithmetic fault ∧ context.run p input = (.error fault, after)) := by
  obtain ⟨arity, code, lowers, rfl⟩ := ofTokens_eq_ok accepted
  have balanced := balanced_of_lowered lowers
  have instructions : Program.instructions
      ⟨withJumps shortCircuit code, arity, resultCategory code, []⟩ = code :=
    instruction_withJumps shortCircuit code
  have steps : (withJumps shortCircuit code).length = code.length := by
    rw [← List.length_map Step.instruction, instruction_withJumps]
  rw [instructions, steps]
  refine ⟨balanced.sound, ?_, ?_⟩
  · intro position s jump step jumps
    obtain ⟨bound, connective⟩ := target_of_withJumps step jumps
    exact ⟨by rw [Jump.target]; omega, bound, connective⟩
  · intro context input
    refine ⟨?_, fun length => Context.run_balanced rfl balanced length context⟩
    intro differs
    rw [Context.run, if_pos differs]

/-- A conjunction whose inequality keeps a quotient from a zero divisor. -/
def guardedStream : List Token :=
  [.slot 0, .int 0, .op .ne 2, .int 7, .slot 0, .op .div 2, .int 3, .op .lt 2, .op .and 2]

theorem run_orderly_guardedStream :
    ∃ p, ofTokens guardedStream true = .ok p ∧ p.steps[2]?.bind Step.jump? = some ⟨.and, 5⟩ ∧
      Jump.target ⟨.and, 5⟩ 2 ≤ p.steps.length ∧
      (Context.run ⟨[9, 9]⟩ p []).1 = .error (.tupleLength 1 0) ∧
      ((∃ v, Context.run ⟨[9, 9]⟩ p [0] = (.ok v, ⟨[v]⟩)) ∨
        ∃ fault after, Fault.Arithmetic fault ∧ Context.run ⟨[9, 9]⟩ p [0] = (.error fault, after)) := by
  have accepted : ofTokens guardedStream true = .ok _ := rfl
  obtain ⟨_, targets, runs⟩ := run_orderly accepted
  exact ⟨_, accepted, rfl, (targets 2 _ _ rfl rfl).2.1, (runs ⟨[9, 9]⟩ []).1 (by decide),
    (runs ⟨[9, 9]⟩ [0]).2 rfl⟩

end Program

end Intension
