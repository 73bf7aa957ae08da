import Intension.Proofs.Machine.Safety
import Intension.Proofs.Program.Evaluation
import Intension.Proofs.Program.Occurrence

namespace Intension

namespace Expr

/-- The first operand of a connective is the truth value of an operator. The instruction of that
    operator stands at the given position, right behind those of its operands, and the connective right
    before the target. -/
inductive FirstOperand (e : Expr) : Connective → Nat → Nat → Prop
  | intro {c : Connective} {op : Operator} {args others : List Expr} {start : Nat}
      (inside : (Expr.node c.operator (.node op args :: others)).StandsIn e start)
      (boolean : op.isBoolean) :
      FirstOperand e c (start + sizeList args) (start + sizeList (.node op args :: others) + 1)

theorem FirstOperand.exists_passed {e : Expr} {c : Connective} {position target : Nat}
    (first : e.FirstOperand c position target) : ∃ passed, position + passed + 2 = target := by
  cases first with
  | @intro op args others start _ _ =>
    refine ⟨sizeList others, ?_⟩
    simp only [sizeList, size]
    omega

end Expr

namespace Program

open Intension.Expr (StandsIn WellFormed FirstOperand code codeList root sizeList code_plain code_test
  drop_code drop_codeList standsIn_node)

theorem pair_eq_append_cons {α : Type} {a b x : α} {before after : List α} :
    [a, b] = before ++ x :: after ↔
      (before = [] ∧ x = a ∧ after = [b]) ∨ (before = [a] ∧ x = b ∧ after = []) := by
  rcases before with _ | ⟨c, _ | ⟨d, before⟩⟩ <;> simp [eq_comm]

theorem connective?_apply {op : Operator} {arity : Nat} {c : Connective} :
    (Instruction.apply op arity).connective? = some c ↔ op = c.operator := by
  cases op <;> cases c <;> simp [Instruction.connective?, Connective.operator]

section Operand

variable (slot : Variable → Nat) {op : Operator} {before after : List Expr} {f : Expr} (c : Connective)
  (passed : Nat)

theorem jumpFrom_operand (valid : ∀ e ∈ after, e.WellFormed) (rest : List Instruction) :
    jumpFrom 1 0 (codeList slot after ++ .apply op (before ++ f :: after).length :: rest) =
        some ⟨c, passed⟩ ↔
      before = [] ∧ op = c.operator ∧ passed = sizeList after := by
  have passes : ∀ e ∈ after, Passes slot e := fun e member => passes_of_wellFormed (valid e member) slot
  by_cases first : before = []
  · subst first
    have jump := jumpFrom_first passes op rest
    rw [List.nil_append, List.length_cons, jump, Option.map_eq_some_iff, Expr.length_codeList]
    simp only [connective?_apply, Jump.mk.injEq, true_and]
    constructor
    · rintro ⟨_, connective, rfl, rfl⟩
      exact ⟨connective, rfl⟩
    · rintro ⟨connective, rfl⟩
      exact ⟨c, connective, rfl, rfl⟩
  · have positive := List.length_pos_iff.mpr first
    have more : after.length + 1 < (before ++ f :: after).length := by
      rw [List.length_append, List.length_cons]
      omega
    simp only [jumpFrom_later passes op more, reduceCtorEq, first, false_and]

/-- A truth value has a jump exactly when it is the first operand of a connective. -/
theorem jumpFrom_behind {e : Expr} (valid : e.WellFormed) {start : Nat}
    (inside : (Expr.node op (before ++ f :: after)).StandsIn e start) (boolean : f.isBoolean)
    (rest : List Instruction) :
    jumpFrom 1 0 ((code slot e ++ rest).drop (start + (sizeList before + f.size))) = some ⟨c, passed⟩ ↔
      before = [] ∧ op = c.operator ∧ passed = sizeList after := by
  induction valid generalizing start rest with
  | leaf concrete => cases inside
  | noMembers =>
    rcases standsIn_node.mp inside with ⟨same, _⟩ | ⟨_, _, _, _, split, _⟩
    · simp at same
    · simp at split
  | @test test tested members membership first others ihFirst ihOthers =>
    have passes : ∀ e ∈ members, Passes slot e := fun e member =>
      passes_of_wellFormed (others e member) slot
    rw [code_test membership, List.append_assoc]
    rcases standsIn_node.mp inside with ⟨same, rfl⟩ | ⟨front, arg, back, inner, split, rfl, below⟩
    · injection same with same operands
      subst same
      rcases pair_eq_append_cons.mp operands.symm with ⟨rfl, rfl, rfl⟩ | ⟨rfl, rfl, rfl⟩
      · have none := jumpFrom_tested passes membership rest
        rw [sizeList, Nat.zero_add, Nat.zero_add, drop_code, List.append_assoc, List.cons_append,
          List.singleton_append, none]
        rcases membership with rfl | rfl <;> cases c <;> simp [Connective.operator]
      · cases boolean
    · rcases pair_eq_append_cons.mp split with ⟨rfl, rfl, rfl⟩ | ⟨rfl, rfl, rfl⟩
      · rw [sizeList, Nat.zero_add]
        exact ihFirst below _
      · have single : sizeList [tested] = (code slot tested).length := (Expr.length_code slot tested).symm
        rw [single, Nat.add_assoc, List.drop_length_add_append, List.append_assoc]
        rcases standsIn_node.mp below with ⟨same, rfl⟩ | ⟨front, arg, back, inner, rfl, rfl, deeper⟩
        · -- The count of the set stands between its members and the test that takes them.
          injection same with same operands
          subst same operands
          have behind : ∀ e ∈ after, Passes slot e := fun e member => passes e (by simp [member])
          have fewer : after.length < (before ++ f :: after).length := by
            rw [List.length_append, List.length_cons]
            omega
          have none := jumpFrom_member behind test fewer rest
          rw [Nat.zero_add, drop_codeList, drop_code, List.cons_append, List.singleton_append, none]
          cases c <;> simp [Connective.operator]
        · rw [Nat.add_assoc, drop_codeList]
          exact ihOthers arg (by simp) deeper _
  | @operator outer args plain arity each ih =>
    rw [code_plain plain, List.append_assoc]
    rcases standsIn_node.mp inside with ⟨same, rfl⟩ | ⟨front, arg, back, inner, split, rfl, below⟩
    · injection same with same operands
      subst same operands
      rw [Nat.zero_add, drop_codeList, drop_code]
      exact jumpFrom_operand slot c passed (fun e member => each e (by simp [member])) rest
    · subst split
      rw [Nat.add_assoc, drop_codeList]
      exact ih arg (by simp) below _

theorem jump_operand {e : Expr} (valid : e.WellFormed) {start position : Nat}
    (inside : (Expr.node op (before ++ f :: after)).StandsIn e start)
    (last : position + 1 = start + sizeList before + f.size) :
    (withJumps true (code slot e))[position]?.bind Step.jump? = some ⟨c, passed⟩ ↔
      f.isBoolean ∧ before = [] ∧ op = c.operator ∧ passed = sizeList after := by
  rw [getElem?_withJumps, inside.arg.getElem?_code slot last, Option.map_some, Option.bind_some,
    Expr.isBoolean_root, jumpBefore, Bool.true_and, last, Nat.add_assoc]
  by_cases boolean : f.isBoolean
  · have jump := jumpFrom_behind slot c passed valid inside boolean []
    rw [List.append_nil] at jump
    rw [if_pos boolean, jump]
    simp only [boolean, true_and]
  · simp only [boolean, Bool.false_eq_true, if_false, reduceCtorEq, false_and]

end Operand

theorem step_barred (slot : Variable → Nat) {e f : Expr} (valid : e.WellFormed) {op : Operator}
    {before after : List Expr} {start position : Nat}
    (inside : (Expr.node op (before ++ f :: after)).StandsIn e start)
    (last : position + 1 = start + sizeList before + f.size)
    (barred : before ≠ [] ∨ (∀ c : Connective, op ≠ c.operator) ∨ ¬ f.isBoolean) :
    (withJumps true (code slot e))[position]? = some ⟨root slot f, none⟩ := by
  have none : (withJumps true (code slot e))[position]?.bind Step.jump? = none := by
    rw [Option.eq_none_iff_forall_ne_some]
    rintro ⟨c, passed⟩ jumps
    obtain ⟨boolean, first, connective, _⟩ := (jump_operand slot c passed valid inside last).mp jumps
    rcases barred with later | other | plain
    · exact later first
    · exact other c connective
    · exact plain boolean
  rw [getElem?_withJumps, inside.arg.getElem?_code slot last, Option.map_some] at none ⊢
  rw [Option.bind_some] at none
  dsimp only at none
  rw [none]

theorem jump_whole (slot : Variable → Nat) {e : Expr} {position : Nat} (last : position + 1 = e.size) :
    (withJumps true (code slot e))[position]?.bind Step.jump? = none := by
  have behind : (code slot e).drop (position + 1) = [] := by
    rw [last, ← Expr.length_code slot e, List.drop_length]
  rw [getElem?_withJumps, behind, Option.bind_map]
  cases (code slot e)[position]? with
  | none => rfl
  | some i => cases i.isBoolean <;> simp [jumpBefore, jumpFrom]

theorem jump_iff (slot : Variable → Nat) {e : Expr} (valid : e.WellFormed) {position passed : Nat}
    {c : Connective} :
    (withJumps true (code slot e))[position]?.bind Step.jump? = some ⟨c, passed⟩ ↔
      e.FirstOperand c position (position + passed + 2) := by
  constructor
  · intro found
    have bound : position < e.size := by
      by_contra outside
      have none : (code slot e)[position]? = none := by
        rw [List.getElem?_eq_none_iff, Expr.length_code]
        omega
      rw [getElem?_withJumps, none] at found
      cases found
    obtain ⟨f, start, inside, last⟩ := Expr.exists_standsIn bound
    rcases inside.whole_or_operand with ⟨rfl, rfl⟩ | ⟨op, before, after, outer, around, rfl⟩
    · rw [jump_whole slot (by omega)] at found
      cases found
    · obtain ⟨boolean, rfl, rfl, rfl⟩ := (jump_operand slot c passed valid around last).mp found
      cases f with
      | leaf l => cases boolean
      | node op args =>
        have first := FirstOperand.intro around boolean
        simp only [sizeList, Expr.size] at last first
        have here : position = outer + sizeList args := by omega
        have target : position + sizeList after + 2 = outer + (1 + sizeList args + sizeList after) + 1 := by
          omega
        rw [target, here]
        exact first
  · intro first
    generalize behind : position + passed + 2 = target at first
    cases first with
    | @intro op args others start inside boolean =>
      rw [sizeList, Expr.size] at behind
      have operand : (Expr.node c.operator ([] ++ .node op args :: others)).StandsIn e start := inside
      refine (jump_operand slot c passed valid operand ?_).mpr ⟨boolean, rfl, rfl, by omega⟩
      rw [sizeList, Expr.size]
      omega

theorem jumps?_eq_none_iff {p : Program} :
    p.jumps? = none ↔ ∀ position : Nat, p.steps[position]?.bind Step.jump? = none := by
  have steps : p.steps.any (fun s => s.jump?.isSome) = false ↔
      ∀ position : Nat, p.steps[position]?.bind Step.jump? = none := by
    simp only [List.any_eq_false, List.mem_iff_getElem?, Option.bind_eq_none_iff, Bool.not_eq_true,
      Option.isSome_eq_false_iff, Option.isNone_iff_eq_none, forall_exists_index]
    exact forall_comm
  rw [← steps, jumps?]
  cases p.steps.any (fun s => s.jump?.isSome) <;> simp

theorem getElem?_jumps? {p : Program} {table : List (Option (Connective × Nat))}
    (listed : p.jumps? = some table) (position : Nat) :
    table[position]? = p.steps[position]?.map fun s =>
      s.jump?.map fun jump => (jump.connective, jump.target position) := by
  rw [jumps?] at listed
  split at listed
  · cases listed
    rw [List.getElem?_mapIdx]
  · cases listed

theorem length_jumps? {p : Program} {table : List (Option (Connective × Nat))}
    (listed : p.jumps? = some table) : table.length = p.instructions.length := by
  rw [jumps?] at listed
  split at listed
  · cases listed
    rw [List.length_mapIdx, instructions, List.length_map]
  · cases listed

theorem getElem?_jumps?_eq_some_iff {p : Program} {table : List (Option (Connective × Nat))}
    (listed : p.jumps? = some table) {position target : Nat} {c : Connective} :
    table[position]? = some (some (c, target)) ↔
      ∃ passed, p.steps[position]?.bind Step.jump? = some ⟨c, passed⟩ ∧ position + passed + 2 = target := by
  rw [getElem?_jumps? listed]
  cases p.steps[position]? with
  | none => simp
  | some s =>
    rw [Option.map_some, Option.some.injEq, Option.map_eq_some_iff, Option.bind_some]
    constructor
    · rintro ⟨⟨connective, passed⟩, jumps, same⟩
      cases same
      exact ⟨passed, jumps, rfl⟩
    · rintro ⟨passed, jumps, rfl⟩
      exact ⟨_, jumps, rfl⟩

/-- The jumps of the program of an expression are those of the truth values that are the first operand
    of a connective, and lead behind it. No other operand has one. -/
theorem jumps?_firstOperand {e : Expr} {p : Program} (accepted : ofExpr e true = .ok p) :
    (∀ start op args slot, (Expr.node op args).StandsIn e start →
      p.instructions[start + sizeList args]? = some (root slot (.node op args))) ∧
    (p.jumps? = none ↔ ∀ c position target, ¬ e.FirstOperand c position target) ∧
    ∀ table, p.jumps? = some table → table.length = p.instructions.length ∧
      (∀ position c target,
        table[position]? = some (some (c, target)) ↔ e.FirstOperand c position target) ∧
      ∀ (start position : Nat) op before f after,
        (Expr.node op (before ++ f :: after)).StandsIn e start →
        position + 1 = start + sizeList before + f.size →
        before ≠ [] ∨ (∀ c : Connective, op ≠ c.operator) ∨ ¬ f.isBoolean →
        table[position]? = some none := by
  obtain ⟨valid, n, _, rfl⟩ := (ofExpr_eq_ok_iff e true p).mp accepted
  have steps : (ofSlots e n true).steps = withJumps true (code e.scope.idxOf e) := rfl
  have instructions : (ofSlots e n true).instructions = code e.scope.idxOf e :=
    instruction_withJumps true (code e.scope.idxOf e)
  refine ⟨?_, ?_, ?_⟩
  · intro start op args slot inside
    rw [instructions, inside.getElem?_code e.scope.idxOf (by rw [Expr.size]; omega)]
    cases op <;> rfl
  · rw [jumps?_eq_none_iff, steps]
    constructor
    · intro none c position target first
      obtain ⟨passed, rfl⟩ := first.exists_passed
      rw [← jump_iff e.scope.idxOf valid, none] at first
      cases first
    · intro none position
      rw [Option.eq_none_iff_forall_ne_some]
      rintro ⟨c, passed⟩ jumps
      exact none c position _ ((jump_iff e.scope.idxOf valid).mp jumps)
  · intro table listed
    refine ⟨length_jumps? listed, ?_, ?_⟩
    · intro position c target
      rw [getElem?_jumps?_eq_some_iff listed]
      simp only [steps, jump_iff e.scope.idxOf valid]
      constructor
      · rintro ⟨passed, first, rfl⟩
        exact first
      · intro first
        obtain ⟨passed, rfl⟩ := first.exists_passed
        exact ⟨passed, first, rfl⟩
    · intro start position op before f after inside last barred
      rw [getElem?_jumps? listed, steps, step_barred e.scope.idxOf valid inside last barred]
      rfl

/-- The inequality decides the conjunction, which decides the implication. The membership test is the
    second operand of the conjunction. -/
theorem jumps?_firstOperand_guardedQuotient :
    ∃ p table, ofExpr Context.guardedQuotient true = .ok p ∧ p.jumps? = some table ∧
      Context.guardedQuotient.FirstOperand .and 2 9 ∧ Context.guardedQuotient.FirstOperand .imp 8 15 ∧
      p.instructions[7]? = some (.apply .mem 4) ∧ table[7]? = some none ∧
      ∀ c target, ¬ Context.guardedQuotient.FirstOperand c 7 target := by
  have accepted : ofExpr Context.guardedQuotient true = .ok _ := rfl
  obtain ⟨_, _, tables⟩ := jumps?_firstOperand accepted
  obtain ⟨_, entries, _⟩ := tables _ rfl
  refine ⟨_, _, accepted, rfl, (entries 2 .and 9).mp rfl, (entries 8 .imp 15).mp rfl, rfl, rfl, ?_⟩
  intro c target first
  have entry := (entries 7 c target).mpr first
  cases entry

end Program

end Intension
