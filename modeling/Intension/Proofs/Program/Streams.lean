import Mathlib.Data.List.Basic
import Intension.Proofs.Program.Code

namespace Intension.Program

open Intension.Expr (Plain WellFormed root code codeList eq_set_of_root_eq_count)

/-- The number of slots and the instructions of a stream, which do not depend on short circuits. -/
def lowered (ts : List Token) : Except ProgramError (Nat × List Instruction) := do
  if ts.isEmpty then throw .empty
  let arity ← slotCount ts
  let code ← assemble (variableIds ts) none 0 0 ts
  return (arity, code)

theorem ofTokens_eq_map (ts : List Token) (shortCircuit : Bool) :
    ofTokens ts shortCircuit = (lowered ts).map (fun stream =>
      ⟨withJumps shortCircuit stream.2, stream.1, resultCategory stream.2, []⟩) := by
  simp only [ofTokens, lowered, bind, Except.bind, pure, Except.pure]
  split
  · rfl
  · cases slotCount ts with
    | error e => rfl
    | ok arity => cases assemble (variableIds ts) none 0 0 ts <;> rfl

theorem ofTokens_eq_ok {ts : List Token} {shortCircuit : Bool} {p : Program}
    (accepted : ofTokens ts shortCircuit = .ok p) :
    ∃ arity code, lowered ts = .ok (arity, code) ∧
      p = ⟨withJumps shortCircuit code, arity, resultCategory code, []⟩ := by
  rw [ofTokens_eq_map] at accepted
  cases lowers : lowered ts with
  | error error =>
    rw [lowers] at accepted
    cases accepted
  | ok both =>
    rw [lowers] at accepted
    cases accepted
    exact ⟨both.1, both.2, rfl, rfl⟩

theorem lowered_eq_ok_iff {ts : List Token} {arity : Nat} {code : List Instruction} :
    lowered ts = .ok (arity, code) ↔
      ts ≠ [] ∧ slotCount ts = .ok arity ∧ assemble (variableIds ts) none 0 0 ts = .ok code := by
  cases ts with
  | nil => simp [lowered, throw, throwThe, MonadExceptOf.throw, bind, Except.bind]
  | cons t ts =>
    simp only [lowered, List.isEmpty_cons, bind, Except.bind, pure, Except.pure]
    cases slotCount (t :: ts) with
    | error e => simp
    | ok n => cases assemble (variableIds (t :: ts)) none 0 0 (t :: ts) <;> simp

/-- The tokens of an expression assemble to its code, whatever stands before and after them. -/
def Assembles (scope : List Variable) (ids : List Nat) (e : Expr) : Prop :=
  ∀ previous height position rest,
    assemble ids previous height position (e.tokens scope ++ rest) =
      (assemble ids (some (e.root (slotIn scope ids))) (height + 1)
        (position + (e.tokens scope).length) rest).map (e.code (slotIn scope ids) ++ ·)

theorem assemble_codeList {scope : List Variable} {ids : List Nat} {es : List Expr}
    (each : ∀ e ∈ es, Assembles scope ids e) (previous : Option Instruction)
    (height position : Nat) (rest : List Token) :
    ∃ last, assemble ids previous height position (Expr.tokensList scope es ++ rest) =
      (assemble ids last (height + es.length) (position + (Expr.tokensList scope es).length)
        rest).map (codeList (slotIn scope ids) es ++ ·) := by
  induction es generalizing previous height position with
  | nil =>
    refine ⟨previous, ?_⟩
    simp only [Expr.tokensList, codeList, List.nil_append, List.length_nil, Nat.add_zero]
    cases assemble ids previous height position rest <;> rfl
  | cons e es ih =>
    have first := each e (by simp) previous height position (Expr.tokensList scope es ++ rest)
    obtain ⟨last, others⟩ := ih (fun f member => each f (List.mem_cons_of_mem _ member))
      (some (e.root (slotIn scope ids))) (height + 1) (position + (e.tokens scope).length)
    refine ⟨last, ?_⟩
    rw [Expr.tokensList, List.append_assoc, first, others, codeList, List.length_cons,
      List.length_append, show height + 1 + es.length = height + (es.length + 1) by omega,
      Nat.add_assoc position]
    cases assemble ids last (height + (es.length + 1)) _ rest <;>
      simp only [Except.map, List.append_assoc]

theorem assemble_operator (ids : List Nat) (previous : Option Instruction) (height position : Nat)
    (rest : List Token) {op : Operator} {arity : Nat} {i : Instruction}
    (found : operatorInstruction op arity previous position = .ok i) (enough : i.arity ≤ height) :
    assemble ids previous height position (.op op arity :: rest) =
      (assemble ids (some i) (height - i.arity + 1) (position + 1) rest).map (i :: ·) :=
  assemble_cons ids previous height position _ rest found enough

section Assembles

variable {scope : List Variable} {ids : List Nat}

theorem Assembles.leaf {l : Leaf} (concrete : ∀ w, l ≠ .wild w) : Assembles scope ids (.leaf l) := by
  intro previous height position rest
  have none_taken : (l.instruction (slotIn scope ids)).arity = 0 := by cases l <;> rfl
  have step := assemble_cons ids previous height position (Token.ofLeaf scope l) rest
    (instruction_leaf scope ids previous position concrete) (by omega)
  rw [none_taken] at step
  exact step

theorem Assembles.test {op : Operator} {tested : Expr} {members : List Expr}
    (membership : op = .mem ∨ op = .notMem) (first : Assembles scope ids tested)
    (others : ∀ member ∈ members, Assembles scope ids member) :
    Assembles scope ids (.node op [tested, .node .set members]) := by
  intro previous height position rest
  have accepted (last : Nat) : operatorInstruction op 2 (some (.count members.length)) last =
      .ok (.apply op (members.length + 2)) := by rcases membership with rfl | rfl <;> rfl
  obtain ⟨last, operands⟩ := assemble_codeList others (some (tested.root (slotIn scope ids)))
    (height + 1) (position + (tested.tokens scope).length)
    (.op .set members.length :: .op op 2 :: rest)
  have counted : assemble ids last (height + 1 + members.length)
      (position + (tested.tokens scope).length + (Expr.tokensList scope members).length)
      (.op .set members.length :: .op op 2 :: rest) = _ :=
    assemble_operator ids last _ _ (.op op 2 :: rest) rfl (Nat.zero_le _)
  have enough : members.length + 2 ≤ height + 1 + members.length + 1 := by omega
  have decided := assemble_operator ids _ (height + 1 + members.length + 1) _ rest
    (accepted (position + (tested.tokens scope).length +
      (Expr.tokensList scope members).length + 1)) enough
  have after : height + 1 + members.length + 1 - (members.length + 2) + 1 = height + 1 := by omega
  simp only [Instruction.arity, after] at counted decided
  rw [Nat.sub_zero, decided] at counted
  rw [counted] at operands
  rw [Expr.tokens_test, List.append_assoc, first, List.append_assoc, List.cons_append,
    List.singleton_append, operands, Expr.root_test membership, Expr.code_test membership]
  simp only [List.length_append, List.length_cons, List.length_nil, Nat.add_assoc]
  cases assemble ids (some (.apply op (members.length + 2))) (height + 1) _ rest <;>
    simp only [Except.map, List.append_assoc, List.cons_append, List.nil_append]

theorem Assembles.operator {op : Operator} {args : List Expr} (plain : Plain op)
    (arity : op.arity.accepts args.length) (each : ∀ arg ∈ args, Assembles scope ids arg) :
    Assembles scope ids (.node op args) := by
  intro previous height position rest
  obtain ⟨last, operands⟩ := assemble_codeList each previous height position
    (.op op args.length :: rest)
  have enough : args.length ≤ height + args.length := by omega
  have step := assemble_operator ids last (height + args.length) _ rest
    (operatorInstruction_plain plain arity last (position + (Expr.tokensList scope args).length)) enough
  have after : height + args.length - args.length + 1 = height + 1 := by omega
  simp only [Instruction.arity, after] at step
  rw [Expr.tokens, List.append_assoc, List.singleton_append, operands, step,
    Expr.root_plain plain, Expr.code_plain plain, List.length_append,
    List.length_singleton, Nat.add_assoc]
  cases assemble ids (some (.apply op args.length)) (height + 1) _ rest <;>
    simp only [Except.map, List.append_assoc, List.singleton_append]

end Assembles

theorem assembles_of_wellFormed {e : Expr} (valid : e.WellFormed) (scope : List Variable)
    (ids : List Nat) : Assembles scope ids e := by
  induction valid with
  | leaf concrete => exact .leaf concrete
  | noMembers =>
    intro previous height position rest
    exact assemble_operator ids previous height position rest rfl (Nat.zero_le _)
  | test membership first others ihFirst ihOthers => exact .test membership ihFirst ihOthers
  | operator plain arity each ih => exact .operator plain arity ih

/-- The heights of the stack before and after the tokens of an expression. Every expression leaves
    a value, and a set leaves its members as well. No operator but a membership test takes them
    away again, so a stack of one value shows that no other set has members. -/
structure Grown (e : Expr) (before after : Nat) : Prop where
  value : before + 1 ≤ after
  wellFormed : after = before + 1 → e.WellFormed
  members : ∀ members, e = .node .set members → before + members.length + 1 ≤ after ∧
    (after = before + members.length + 1 → ∀ member ∈ members, member.WellFormed)

inductive GrownList : List Expr → Nat → Nat → Prop
  | nil (height : Nat) : GrownList [] height height
  | cons {e : Expr} {es : List Expr} {before between after : Nat} (first : Grown e before between)
      (others : GrownList es between after) : GrownList (e :: es) before after

theorem GrownList.values {es : List Expr} {before after : Nat} (grown : GrownList es before after) :
    before + es.length ≤ after ∧ (after = before + es.length → ∀ e ∈ es, e.WellFormed) := by
  induction grown with
  | nil height => exact ⟨Nat.le_refl _, fun _ e member => absurd member (by simp)⟩
  | cons first others ih =>
    have one := first.value
    obtain ⟨bound, exact_values⟩ := ih
    refine ⟨by rw [List.length_cons]; omega, ?_⟩
    intro equal e member
    rw [List.length_cons] at equal
    rcases List.mem_cons.mp member with rfl | member
    · exact first.wellFormed (by omega)
    · exact exact_values (by omega) e member

theorem Grown.leaf {l : Leaf} (concrete : ∀ w, l ≠ .wild w) (height : Nat) :
    Grown (.leaf l) height (height + 1) :=
  ⟨Nat.le_refl _, fun _ => .leaf concrete, fun members same => by cases same⟩

theorem Grown.set {members : List Expr} {before after : Nat}
    (grown : GrownList members before after) : Grown (.node .set members) before (after + 1) := by
  obtain ⟨bound, exact_values⟩ := grown.values
  refine ⟨by omega, ?_, ?_⟩
  · intro equal
    have noMembers : members = [] := List.length_eq_zero_iff.mp (by omega)
    subst noMembers
    exact .noMembers
  · intro others same
    cases same
    exact ⟨by omega, fun equal => exact_values (by omega)⟩

theorem Grown.test {op : Operator} {tested : Expr} {members : List Expr} {before after : Nat}
    (membership : op = .mem ∨ op = .notMem)
    (grown : GrownList [tested, .node .set members] before after) :
    Grown (.node op [tested, .node .set members]) before (after - (members.length + 2) + 1) := by
  cases grown with
  | cons first others =>
    cases others with
    | cons second others =>
      cases others
      have one := first.value
      obtain ⟨bound, exact_values⟩ := second.members members rfl
      refine ⟨by omega, ?_, ?_⟩
      · intro equal
        exact .test membership (first.wellFormed (by omega)) (exact_values (by omega))
      · intro others same
        rcases membership with rfl | rfl <;> cases same

theorem Grown.operator {op : Operator} {args : List Expr} {before after : Nat} (plain : Plain op)
    (arity : op.arity.accepts args.length) (grown : GrownList args before after) :
    Grown (.node op args) before (after - args.length + 1) := by
  obtain ⟨bound, exact_values⟩ := grown.values
  refine ⟨by omega, ?_, ?_⟩
  · intro equal
    exact .operator plain arity (exact_values (by omega))
  · intro others same
    cases same
    exact absurd rfl plain.1

/-- What an assembled stream says of an expression at its head. -/
def Grows (scope : List Variable) (ids : List Nat) (e : Expr) : Prop :=
  ∀ previous height position rest out,
    assemble ids previous height position (e.tokens scope ++ rest) = .ok out →
      ∃ after position' out', Grown e height after ∧
        assemble ids (some (e.root (slotIn scope ids))) after position' rest = .ok out'

theorem grownList_of_assemble {scope : List Variable} {ids : List Nat} {es : List Expr}
    (each : ∀ e ∈ es, Grows scope ids e) {previous : Option Instruction} {height position : Nat}
    {rest : List Token} {out : List Instruction}
    (found : assemble ids previous height position (Expr.tokensList scope es ++ rest) = .ok out) :
    ∃ after position' out', GrownList es height after ∧
      assemble ids ((es.getLast?.map (root (slotIn scope ids))).or previous) after position' rest =
        .ok out' := by
  induction es generalizing previous height position out with
  | nil => exact ⟨height, position, out, .nil height, found⟩
  | cons e es ih =>
    rw [Expr.tokensList, List.append_assoc] at found
    obtain ⟨between, position', out', first, found⟩ := each e (by simp) _ _ _ _ _ found
    obtain ⟨after, position'', out'', others, found⟩ :=
      ih (fun f member => each f (List.mem_cons_of_mem _ member)) found
    refine ⟨after, position'', out'', .cons first others, ?_⟩
    rw [List.getLast?_cons]
    cases last : es.getLast? <;> rw [last] at found <;> exact found

theorem grows (scope : List Variable) (ids : List Nat) (e : Expr) : Grows scope ids e := by
  induction e using Expr.induction with
  | leaf l =>
    intro previous height position rest out found
    obtain ⟨i, out', accepted, enough, found⟩ := assemble_cons_eq_ok found
    have concrete : ∀ w, l ≠ .wild w := by
      rintro w rfl
      cases accepted
    rw [instruction_leaf scope ids previous position concrete] at accepted
    cases accepted
    have arity : (l.instruction (slotIn scope ids)).arity = 0 := by cases l <;> rfl
    rw [arity] at found
    exact ⟨height + 1, position + 1, out', .leaf concrete height, found⟩
  | node op args ih =>
    intro previous height position rest out found
    rw [Expr.tokens, List.append_assoc, List.singleton_append] at found
    obtain ⟨between, position', _, grown, found⟩ := grownList_of_assemble ih found
    obtain ⟨i, out', accepted, enough, found⟩ := assemble_cons_eq_ok found
    rcases operatorInstruction_eq_ok accepted with ⟨rfl, rfl⟩ | ⟨membership, two, members, behind, rfl⟩ |
      ⟨plain, arity, rfl⟩
    · exact ⟨between + 1, position' + 1, out', .set grown, found⟩
    · -- Only a set is assembled to a count, so the second operand is one.
      obtain ⟨tested, second, rfl⟩ := List.length_eq_two.mp two
      have count : second.root (slotIn scope ids) = .count members := by simpa using behind
      obtain ⟨operands, rfl, rfl⟩ := eq_set_of_root_eq_count count
      refine ⟨_, position' + 1, out', .test membership grown, ?_⟩
      rw [Expr.root_test membership]
      exact found
    · refine ⟨between - args.length + 1, position' + 1, out', .operator plain arity grown, ?_⟩
      rw [Expr.root_plain plain]
      exact found

/-- The stream of an expression assembles exactly when the expression is well formed. -/
theorem assemble_tokens_iff (scope : List Variable) (ids : List Nat) (e : Expr)
    (out : List Instruction) :
    assemble ids none 0 0 (e.tokens scope) = .ok out ↔
      e.WellFormed ∧ out = e.code (slotIn scope ids) := by
  have code (valid : e.WellFormed) :
      assemble ids none 0 0 (e.tokens scope) = .ok (e.code (slotIn scope ids)) := by
    have assembled := assembles_of_wellFormed valid scope ids none 0 0 []
    simp only [List.append_nil] at assembled
    rw [assembled]
    simp [assemble, Except.map]
  constructor
  · intro found
    rw [← List.append_nil (e.tokens scope)] at found
    obtain ⟨after, position, rest, grown, last⟩ := grows scope ids e none 0 0 [] out found
    have one : after = 1 := by
      simp only [assemble] at last
      split at last
      · assumption
      · cases last
    have valid := grown.wellFormed one
    rw [List.append_nil, code valid] at found
    cases found
    exact ⟨valid, rfl⟩
  · rintro ⟨valid, rfl⟩
    exact code valid

end Intension.Program
