import Intension.Program.Assembly
import Intension.Proofs.Expr.WellFormed

namespace Intension

def Leaf.instruction (slot : Variable → Nat) : Leaf → Instruction
  | .var v => .load (slot v)
  | .const k => .push k
  | .param i => .load i
  | .wild _ => .push 0

namespace Expr

/-- How many values an operator takes from the stack. The members of a set and their number stay
    there until the membership test. -/
def taken : Operator → List Expr → Nat
  | .mem, [_, .node .set members] | .notMem, [_, .node .set members] => members.length + 2
  | _, args => args.length

def root (slot : Variable → Nat) : Expr → Instruction
  | .leaf l => l.instruction slot
  | .node .set args => .count args.length
  | .node op args => .apply op (taken op args)

mutual

/-- The instructions of an expression whose variables have the given slots. -/
def code (slot : Variable → Nat) : Expr → List Instruction
  | .leaf l => [l.instruction slot]
  | .node op args => codeList slot args ++ [root slot (.node op args)]

def codeList (slot : Variable → Nat) : List Expr → List Instruction
  | [] => []
  | e :: es => e.code slot ++ codeList slot es

end

theorem codeList_eq_flatMap (slot : Variable → Nat) (es : List Expr) :
    codeList slot es = es.flatMap (code slot) := by
  induction es with
  | nil => rfl
  | cons e es ih => rw [codeList, ih, List.flatMap_cons]

theorem root_plain {op : Operator} (plain : Plain op) (slot : Variable → Nat) (args : List Expr) :
    root slot (.node op args) = .apply op args.length := by
  obtain ⟨notSet, notMem, notNotMem⟩ := plain
  cases op <;> first | contradiction | rfl

theorem root_test {op : Operator} (membership : op = .mem ∨ op = .notMem) (slot : Variable → Nat)
    (tested : Expr) (members : List Expr) :
    root slot (.node op [tested, .node .set members]) = .apply op (members.length + 2) := by
  rcases membership with rfl | rfl <;> rfl

theorem eq_set_of_root_eq_count {slot : Variable → Nat} {e : Expr} {count : Nat}
    (counts : root slot e = .count count) :
    ∃ members, e = .node .set members ∧ count = members.length := by
  cases e with
  | leaf l => cases l <;> cases counts
  | node op args =>
    cases op <;> cases counts
    exact ⟨args, rfl, rfl⟩

theorem code_plain {op : Operator} (plain : Plain op) (slot : Variable → Nat) (args : List Expr) :
    code slot (.node op args) = codeList slot args ++ [.apply op args.length] := by
  rw [code, root_plain plain]

theorem code_test {op : Operator} (membership : op = .mem ∨ op = .notMem) (slot : Variable → Nat)
    (tested : Expr) (members : List Expr) :
    code slot (.node op [tested, .node .set members]) = code slot tested ++
      (codeList slot members ++ [.count members.length, .apply op (members.length + 2)]) := by
  rw [code, root_test membership]
  simp only [codeList, code, root, List.append_nil, List.append_assoc, List.singleton_append]

theorem tokens_test (op : Operator) (scope : List Variable) (tested : Expr) (members : List Expr) :
    tokens scope (.node op [tested, .node .set members]) = tokens scope tested ++
      (tokensList scope members ++ [.op .set members.length, .op op 2]) := by
  simp only [tokens, tokensList, List.append_nil, List.append_assoc, List.singleton_append,
    List.length_cons, List.length_nil]

end Expr

/-- The slot of a variable in a stream with the given scope, in which the variables outside of the
    scope are numbered. -/
def Program.slotIn (scope : List Variable) (ids : List Nat) (v : Variable) : Nat :=
  match scope.idxOf? v with
  | some i => i
  | none => ids.idxOf v.id

namespace Program

theorem instruction_leaf (scope : List Variable) (ids : List Nat) (previous : Option Instruction)
    (position : Nat) {l : Leaf} (concrete : ∀ w, l ≠ .wild w) :
    instruction ids previous position (Token.ofLeaf scope l) =
      .ok (l.instruction (slotIn scope ids)) := by
  cases l with
  | var v =>
    simp only [Token.ofLeaf, Leaf.instruction, slotIn]
    cases scope.idxOf? v <;> rfl
  | const k => rfl
  | param i => rfl
  | wild w => exact absurd rfl (concrete w)

theorem operatorInstruction_plain {op : Operator} (plain : Expr.Plain op) {arity : Nat}
    (accepted : op.arity.accepts arity) (previous : Option Instruction) (position : Nat) :
    operatorInstruction op arity previous position = .ok (.apply op arity) := by
  obtain ⟨notSet, notMem, notNotMem⟩ := plain
  cases op <;> first | contradiction | simp [operatorInstruction, accepted]

theorem operatorInstruction_eq_ok {op : Operator} {arity : Nat} {previous : Option Instruction}
    {position : Nat} {i : Instruction} (found : operatorInstruction op arity previous position = .ok i) :
    (op = .set ∧ i = .count arity) ∨
    ((op = .mem ∨ op = .notMem) ∧ arity = 2 ∧
      ∃ members, previous = some (.count members) ∧ i = .apply op (members + 2)) ∨
    (Expr.Plain op ∧ op.arity.accepts arity ∧ i = .apply op arity) := by
  unfold operatorInstruction at found
  split at found
  · cases found
  · rename_i refused
    have accepted : op.arity.accepts arity := by simpa using refused
    split at found
    · cases found
      exact .inl ⟨rfl, rfl⟩
    · split at found
      · rename_i members
        cases found
        exact .inr (.inl ⟨.inl rfl, of_decide_eq_true accepted, members, rfl, rfl⟩)
      · cases found
    · split at found
      · rename_i members
        cases found
        exact .inr (.inl ⟨.inr rfl, of_decide_eq_true accepted, members, rfl, rfl⟩)
      · cases found
    · rename_i notSet notMem notNotMem
      cases found
      exact .inr (.inr ⟨⟨notSet, notMem, notNotMem⟩, accepted, rfl⟩)

theorem accepts_of_operatorInstruction {op : Operator} {arity : Nat} {previous : Option Instruction}
    {position : Nat} {i : Instruction} (found : operatorInstruction op arity previous position = .ok i) :
    op.arity.accepts arity := by
  rcases operatorInstruction_eq_ok found with ⟨rfl, _⟩ | ⟨membership, rfl, _⟩ | ⟨_, accepted, _⟩
  · exact decide_eq_true (Nat.zero_le arity)
  · rcases membership with rfl | rfl <;> rfl
  · exact accepted

theorem assemble_cons (ids : List Nat) (previous : Option Instruction) (height position : Nat)
    (t : Token) (ts : List Token) {i : Instruction} (found : instruction ids previous position t = .ok i)
    (enough : i.arity ≤ height) :
    assemble ids previous height position (t :: ts) =
      (assemble ids (some i) (height - i.arity + 1) (position + 1) ts).map (i :: ·) := by
  have present : ¬ height < i.arity := by omega
  simp only [assemble, found, bind, Except.bind, present, ite_false]
  cases assemble ids (some i) (height - i.arity + 1) (position + 1) ts <;> rfl

theorem assemble_cons_eq_ok {ids : List Nat} {previous : Option Instruction} {height position : Nat}
    {t : Token} {ts : List Token} {code : List Instruction}
    (found : assemble ids previous height position (t :: ts) = .ok code) :
    ∃ i rest, instruction ids previous position t = .ok i ∧ i.arity ≤ height ∧
      assemble ids (some i) (height - i.arity + 1) (position + 1) ts = .ok rest := by
  simp only [assemble, bind, Except.bind] at found
  split at found
  · cases found
  · rename_i i first
    split at found
    · cases found
    · rename_i enough
      split at found
      · cases found
      · rename_i rest tail
        exact ⟨i, rest, first, by omega, tail⟩

/-- Tokens and instructions stand at the same positions, and each instruction is made from its token
    and the instruction before. -/
theorem assemble_getElem? {ids : List Nat} {ts : List Token} {previous : Option Instruction}
    {height position : Nat} {code : List Instruction}
    (found : assemble ids previous height position ts = .ok code) (i : Nat) :
    (ts[i]? = none ∧ code[i]? = none) ∨
      ∃ t before j, ts[i]? = some t ∧ (previous :: code.map some)[i]? = some before ∧
        code[i]? = some j ∧ instruction ids before (position + i) t = .ok j := by
  induction ts generalizing previous height position code i with
  | nil =>
    simp only [assemble] at found
    split at found
    · cases found
      exact .inl ⟨rfl, rfl⟩
    · cases found
  | cons t ts ih =>
    obtain ⟨first, rest, accepted, enough, others⟩ := assemble_cons_eq_ok found
    rw [assemble_cons _ _ _ _ _ _ accepted enough, others] at found
    cases found
    cases i with
    | zero => exact .inr ⟨t, previous, first, rfl, rfl, rfl, accepted⟩
    | succ i =>
      have later := ih others i
      rwa [Nat.add_assoc, Nat.add_comm 1 i] at later

end Program

end Intension
