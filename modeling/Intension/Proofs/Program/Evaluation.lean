import Intension.Proofs.Machine.Segments
import Intension.Proofs.Program.Acceptance

namespace Intension

/-- The word of a leaf, from the values of the slots. Variables have the slots of their places in
    scope. -/
def Leaf.read (scope : List Variable) (input : List Word) : Leaf → Word
  | .var v => input.getD (scope.idxOf v) 0
  | .const k => k
  | .param i => input.getD i 0
  | .wild _ => 0

namespace Context

theorem loads_of_slots {e : Expr} {n : Nat} (valid : e.WellFormed) (slots : e.Slots n)
    {input : List Word} (length : input.length = n) :
    Loads input e.scope.idxOf (Leaf.read e.scope input) e.leaves := by
  intro l member stack
  cases l with
  | var v =>
    have occurs := Expr.mem_occurrences.mpr member
    rcases slots with ⟨_, inScope, rfl⟩ | ⟨none, _⟩
    · exact perform_load (by rw [length]; exact List.idxOf_lt_length_of_mem (inScope v occurs)) stack
    · rw [none] at occurs
      contradiction
  | const k => rfl
  | param i =>
    have used := Expr.mem_parameters.mpr member
    rcases slots with ⟨none, _⟩ | ⟨_, dense⟩
    · rw [none] at used
      contradiction
    · exact perform_load (by rw [length]; exact (dense i).mp used) stack
  | wild w => exact absurd member (valid.concrete w)

theorem run_ofSlots {e : Expr} {n : Nat} (valid : e.WellFormed) (slots : e.Slots n)
    (shortCircuit : Bool) {input : List Word} (length : input.length = n) (context : Context) :
    (context.run (Program.ofSlots e n shortCircuit) input).1 =
      e.value shortCircuit (Leaf.read e.scope input) := by
  have segment := evaluates_of_wellFormed valid (loads_of_slots valid slots length) shortCircuit [] []
  rw [List.append_nil] at segment
  have steps : (Program.ofSlots e n shortCircuit).steps =
      Program.withJumps shortCircuit (e.code e.scope.idxOf) := rfl
  rw [run_eq_ending length, steps, segment]
  cases e.value shortCircuit (Leaf.read e.scope input) with
  | error fault => rfl
  | ok v =>
    have last : Program.jumpBefore shortCircuit e.isBoolean [] = none := by
      unfold Program.jumpBefore
      split <;> rfl
    rw [last]
    rfl

theorem run_ofExpr {e : Expr} {p : Program} {shortCircuit : Bool}
    (accepted : Program.ofExpr e shortCircuit = .ok p) {input : List Word}
    (length : input.length = p.arity) (context : Context) :
    (context.run p input).1 = e.value shortCircuit (Leaf.read e.scope input) := by
  obtain ⟨valid, n, slots, rfl⟩ := (Program.ofExpr_eq_ok_iff e shortCircuit p).mp accepted
  exact run_ofSlots valid slots shortCircuit length context

/-- An implication whose antecedent keeps a quotient from a zero divisor. -/
def guardedQuotient : Expr :=
  .node .imp [
    .node .and [.node .ne [.leaf (.var ⟨4, "x"⟩), .leaf (.const 0)],
      .node .mem [.leaf (.var ⟨7, "y"⟩), .node .set [.leaf (.const 5), .leaf (.var ⟨2, "z"⟩)]]],
    .node .eq [.node .div [.leaf (.var ⟨2, "z"⟩), .leaf (.var ⟨4, "x"⟩)], .leaf (.const 1)]]

/-- Jumps make a program evaluate its expression with short circuits. -/
theorem run_eq_lazy {e : Expr} {p : Program} (accepted : Program.ofExpr e true = .ok p)
    {input : List Word} (length : input.length = p.arity) (context : Context) :
    (context.run p input).1 = e.lazy (Leaf.read e.scope input) :=
  run_ofExpr accepted length context

theorem run_guardedQuotient_lazy :
    ∃ p, Program.ofExpr guardedQuotient true = .ok p ∧ [0, 5, 7].length = p.arity ∧
      (Context.run ⟨[9, 9]⟩ p [0, 5, 7]).1 =
        guardedQuotient.lazy (Leaf.read guardedQuotient.scope [0, 5, 7]) ∧
      guardedQuotient.lazy (Leaf.read guardedQuotient.scope [0, 5, 7]) = .ok 1 :=
  ⟨_, rfl, rfl, run_eq_lazy rfl rfl _, rfl⟩

/-- Without jumps, a program evaluates all operands of its expression. -/
theorem run_eq_strict {e : Expr} {p : Program} (accepted : Program.ofExpr e false = .ok p)
    {input : List Word} (length : input.length = p.arity) (context : Context) :
    (context.run p input).1 = e.strict (Leaf.read e.scope input) :=
  run_ofExpr accepted length context

theorem run_guardedQuotient_strict :
    ∃ p, Program.ofExpr guardedQuotient false = .ok p ∧ [0, 5, 7].length = p.arity ∧
      (Context.run ⟨[9, 9]⟩ p [0, 5, 7]).1 =
        guardedQuotient.strict (Leaf.read guardedQuotient.scope [0, 5, 7]) ∧
      guardedQuotient.strict (Leaf.read guardedQuotient.scope [0, 5, 7]) = .error .divisionByZero :=
  ⟨_, rfl, rfl, run_eq_strict rfl rfl _, rfl⟩

end Context

end Intension
