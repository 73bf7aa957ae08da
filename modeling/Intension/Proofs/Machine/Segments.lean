import Intension.Proofs.Expr.Value
import Intension.Proofs.Machine.Steps

namespace Intension

namespace Context

open Intension.Expr (value valueList code codeList)
open Program (withJumps jumpBefore jumpFrom Passes passes_of_wellFormed)

/-- The instructions of the leaves put their values on the stack. -/
def Loads (input : List Word) (slot : Variable → Nat) (read : Leaf → Word) (leaves : List Leaf) :
    Prop :=
  ∀ l ∈ leaves, ∀ stack, perform input (l.instruction slot) stack = .ok (read l :: stack)

/-- The code of an expression leaves its value on the stack, or ends with its fault. -/
def Evaluates (input : List Word) (slot : Variable → Nat) (read : Leaf → Word) (shortCircuit : Bool)
    (e : Expr) : Prop :=
  ∀ rest stack,
    ending (execute input none (withJumps shortCircuit (e.code slot ++ rest)) stack) = (do
      let v ← e.value shortCircuit read
      resume input (jumpBefore shortCircuit e.isBoolean rest) (withJumps shortCircuit rest)
        (v :: stack))

variable {input : List Word} {slot : Variable → Nat} {read : Leaf → Word} {shortCircuit : Bool}

/-- Operands run one after the other when the code behind them takes none of them as its first
    operand, so that no jump leads past it. -/
theorem ending_codeList {es : List Expr} (valid : ∀ e ∈ es, e.WellFormed)
    (each : ∀ e ∈ es, Evaluates input slot read shortCircuit e) {rest : List Instruction}
    (quiet : ∀ height passed, 0 < height → height ≤ es.length → jumpFrom height passed rest = none)
    (stack : List Word) :
    ending (execute input none (withJumps shortCircuit (codeList slot es ++ rest)) stack) = (do
      let vs ← valueList shortCircuit read es
      ending (execute input none (withJumps shortCircuit rest) (vs.reverse ++ stack))) := by
  induction es generalizing stack with
  | nil =>
    rw [Expr.valueList_nil]
    rfl
  | cons e es ih =>
    have others : ∀ f ∈ es, Passes slot f := fun f member =>
      passes_of_wellFormed (valid f (List.mem_cons_of_mem _ member)) slot
    have noJump : jumpBefore shortCircuit e.isBoolean (codeList slot es ++ rest) = none := by
      unfold jumpBefore
      split
      · rw [Program.jumpFrom_codeList others (by omega)]
        exact quiet _ _ (by omega) (by rw [List.length_cons]; omega)
      · rfl
    rw [codeList, List.append_assoc, each e (by simp), noJump, Expr.valueList_cons]
    simp only [bind_assoc, resume_none]
    congr 1
    funext v
    rw [ih (fun f member => valid f (List.mem_cons_of_mem _ member))
      (fun f member => each f (List.mem_cons_of_mem _ member))
      (fun height passed positive bound =>
        quiet height passed positive (by rw [List.length_cons]; omega))]
    simp only [pure_bind, List.reverse_cons, List.append_assoc, List.singleton_append]

theorem Evaluates.leaf {l : Leaf} (loads : Loads input slot read (Expr.leaf l).leaves) :
    Evaluates input slot read shortCircuit (.leaf l) := by
  intro rest stack
  have plain : (l.instruction slot).isBoolean = false := by cases l <;> rfl
  rw [Expr.value_leaf, code, List.singleton_append, ending_withJumps,
    loads l (by simp [Expr.leaves]), plain]
  rfl

theorem Evaluates.test {op : Operator} {tested : Expr} {members : List Expr}
    (test : op = .mem ∨ op = .notMem) (valid : ∀ e ∈ members, e.WellFormed)
    (first : Evaluates input slot read shortCircuit tested)
    (others : ∀ e ∈ members, Evaluates input slot read shortCircuit e) :
    Evaluates input slot read shortCircuit (.node op [tested, .node .set members]) := by
  intro rest stack
  have boolean : op.isBoolean = true := by rcases test with rfl | rfl <;> rfl
  have noJump : jumpBefore shortCircuit tested.isBoolean
      (codeList slot members ++ .count members.length :: .apply op (members.length + 2) :: rest) =
        none := by
    unfold jumpBefore
    split
    · exact Program.jumpFrom_tested (fun e inside => passes_of_wellFormed (valid e inside) slot) test rest
    · rfl
  have quiet : ∀ height passed, 0 < height → height ≤ members.length →
      jumpFrom height passed
        (.count members.length :: .apply op (members.length + 2) :: rest) = none :=
    fun height passed positive bound => Program.jumpFrom_counted positive bound op passed rest
  rw [Expr.code_test test, List.append_assoc, List.append_assoc, List.cons_append,
    List.singleton_append, first, noJump, Expr.value_test shortCircuit read test]
  cases value shortCircuit read tested with
  | error fault => rfl
  | ok v =>
    simp only [ok_bind, resume_none]
    rw [ending_codeList valid others quiet]
    cases found : valueList shortCircuit read members with
    | error fault => rfl
    | ok vs =>
      have length := Expr.length_valueList found
      simp only [ok_bind, ending_withJumps, perform_count, membership, ← length]
      cases Operator.inRange .set vs.length with
      | error fault => rfl
      | ok count =>
        simp only [ok_bind, pure_eq_ok]
        rw [show jumpBefore shortCircuit (Instruction.count vs.length).isBoolean _ = none by
          simp [jumpBefore, Instruction.isBoolean], resume_none, ending_withJumps,
          perform_test input test]
        rfl

theorem ending_others {op : Operator} {others : List Expr} (valid : ∀ e ∈ others, e.WellFormed)
    (each : ∀ e ∈ others, Evaluates input slot read shortCircuit e) (rest : List Instruction)
    (v : Word) (stack : List Word) :
    ending (execute input none (withJumps shortCircuit
        (codeList slot others ++ .apply op (others.length + 1) :: rest)) (v :: stack)) = (do
      let vs ← valueList shortCircuit read others
      let w ← op.apply (v :: vs)
      resume input (jumpBefore shortCircuit op.isBoolean rest) (withJumps shortCircuit rest)
        (w :: stack)) := by
  have quiet : ∀ height passed, 0 < height → height ≤ others.length →
      jumpFrom height passed (.apply op (others.length + 1) :: rest) = none := by
    intro height passed _ bound
    exact Program.jumpFrom_short (by simp only [Instruction.arity]; omega) passed rest
  rw [ending_codeList valid each quiet]
  cases found : valueList shortCircuit read others with
  | error fault => rfl
  | ok vs =>
    have operands := perform_apply input op (v :: vs) stack
    rw [List.length_cons, Expr.length_valueList found, List.reverse_cons, List.append_assoc,
      List.singleton_append] at operands
    rw [ok_bind, ok_bind, ending_withJumps, operands]
    cases op.apply (v :: vs) <;> rfl

theorem Evaluates.operator {op : Operator} {first : Expr} {others : List Expr}
    (plain : Expr.Plain op) (valid : ∀ e ∈ first :: others, e.WellFormed)
    (each : ∀ e ∈ first :: others, Evaluates input slot read shortCircuit e) :
    Evaluates input slot read shortCircuit (.node op (first :: others)) := by
  intro rest stack
  have validOthers : ∀ e ∈ others, e.WellFormed := fun e inside =>
    valid e (List.mem_cons_of_mem _ inside)
  have onward : ∀ v stack, ending (execute input none (withJumps shortCircuit
      (codeList slot others ++ .apply op (others.length + 1) :: rest)) (v :: stack)) = _ :=
    ending_others validOthers (fun e inside => each e (List.mem_cons_of_mem _ inside)) rest
  rw [Expr.code_plain plain, codeList, List.append_assoc, List.append_assoc, List.singleton_append,
    each first (by simp), Expr.value_plain shortCircuit read plain, List.length_cons]
  cases found : value shortCircuit read first with
  | error fault => rfl
  | ok v =>
    simp only [ok_bind]
    by_cases jumps : (shortCircuit && first.isBoolean) = true
    · have truth : v = 0 ∨ v = 1 := Expr.value_truth shortCircuit read (valid first (by simp))
        ((Bool.and_eq_true _ _).mp jumps).2 found
      have jump : jumpBefore shortCircuit first.isBoolean
          (codeList slot others ++ .apply op (others.length + 1) :: rest) =
            (Instruction.apply op (others.length + 1)).connective?.map
              (fun connective => ⟨connective, (codeList slot others).length⟩) := by
        rw [jumpBefore, if_pos jumps]
        exact Program.jumpFrom_first
          (fun e inside => passes_of_wellFormed (validOthers e inside) slot) op rest
      rw [jump, resume, decided_connective truth, if_pos jumps]
      cases op.decided? v with
      | none =>
        rw [onward]
        simp only [bind_assoc]
        rfl
      | some w => exact ending_over input shortCircuit (codeList slot others) rest _ (w :: stack)
    · rw [jumpBefore, if_neg jumps, resume_none, if_neg jumps, onward]
      simp only [bind_assoc]
      rfl

theorem evaluates_of_wellFormed {e : Expr} (valid : e.WellFormed)
    (loads : Loads input slot read e.leaves) (shortCircuit : Bool) :
    Evaluates input slot read shortCircuit e := by
  induction valid with
  | leaf concrete => exact .leaf loads
  | noMembers =>
    intro rest stack
    rw [Expr.value_set]
    exact ending_withJumps input shortCircuit (.count 0) rest stack
  | test test first others ihFirst ihOthers =>
    rename_i op tested members
    refine .test test others (ihFirst ?_) (fun e inside => ihOthers e inside ?_)
    · exact fun l member => loads l (Expr.mem_leaves_node.mpr ⟨tested, by simp, member⟩)
    · exact fun l member => loads l (Expr.mem_leaves_node.mpr ⟨.node .set members, by simp,
        Expr.mem_leaves_node.mpr ⟨e, inside, member⟩⟩)
  | operator plain arity each ih =>
    rename_i op args
    have operands : ∀ e ∈ args, Evaluates input slot read shortCircuit e := fun e inside =>
      ih e inside (fun l member => loads l (Expr.mem_leaves_node.mpr ⟨e, inside, member⟩))
    obtain ⟨first, others, rfl⟩ := List.exists_cons_of_ne_nil (plain.args_ne_nil arity)
    exact .operator plain each operands

end Context

end Intension
