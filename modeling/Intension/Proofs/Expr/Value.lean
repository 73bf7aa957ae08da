import Intension.Proofs.Expr.WellFormed
import Intension.Proofs.Operator.Truth

namespace Intension.Expr

def isBoolean : Expr → Bool
  | .leaf _ => false
  | .node op _ => op.isBoolean

theorem isBoolean_iff {e : Expr} : e.isBoolean ↔ e.category? = some .boolean := by
  cases e with
  | leaf l => cases l <;> simp [isBoolean, category?]
  | node op args => simp [isBoolean, category?, Operator.isBoolean]

mutual

/-- The value of an expression whose operands are all evaluated from left to right. A set without
    members is zero where no value is tested against it. -/
def strict (read : Leaf → Word) : Expr → Except Fault Word
  | .leaf l => .ok (read l)
  | .node .set _ => .ok 0
  | .node .mem [tested, .node .set members] => do
    let v ← strict read tested
    let vs ← strictList read members
    membership true v vs
  | .node .notMem [tested, .node .set members] => do
    let v ← strict read tested
    let vs ← strictList read members
    membership false v vs
  | .node op args => do
    let vs ← strictList read args
    op.apply vs

def strictList (read : Leaf → Word) : List Expr → Except Fault (List Word)
  | [] => .ok []
  | e :: es => do
    let v ← strict read e
    let vs ← strictList read es
    return v :: vs

end

mutual

/-- The value of an expression in which a connective whose first operand is a truth value that
    decides it leaves the others unevaluated. -/
def lazy (read : Leaf → Word) : Expr → Except Fault Word
  | .leaf l => .ok (read l)
  | .node .set _ => .ok 0
  | .node .mem [tested, .node .set members] => do
    let v ← lazy read tested
    let vs ← lazyList read members
    membership true v vs
  | .node .notMem [tested, .node .set members] => do
    let v ← lazy read tested
    let vs ← lazyList read members
    membership false v vs
  | .node op [] => op.apply []
  | .node op (first :: others) => do
    let v ← lazy read first
    match if first.isBoolean then op.decided? v else none with
    | some w => return w
    | none => do
      let vs ← lazyList read others
      op.apply (v :: vs)

def lazyList (read : Leaf → Word) : List Expr → Except Fault (List Word)
  | [] => .ok []
  | e :: es => do
    let v ← lazy read e
    let vs ← lazyList read es
    return v :: vs

end

def value : Bool → (Leaf → Word) → Expr → Except Fault Word
  | true => lazy
  | false => strict

def valueList : Bool → (Leaf → Word) → List Expr → Except Fault (List Word)
  | true => lazyList
  | false => strictList

variable (shortCircuit : Bool) (read : Leaf → Word)

theorem value_leaf (l : Leaf) : value shortCircuit read (.leaf l) = .ok (read l) := by
  cases shortCircuit <;> rfl

theorem value_set (members : List Expr) : value shortCircuit read (.node .set members) = .ok 0 := by
  cases shortCircuit <;> rfl

theorem valueList_nil : valueList shortCircuit read [] = .ok [] := by
  cases shortCircuit <;> rfl

theorem valueList_cons (e : Expr) (es : List Expr) :
    valueList shortCircuit read (e :: es) = (do
      let v ← value shortCircuit read e
      let vs ← valueList shortCircuit read es
      return v :: vs) := by
  cases shortCircuit <;> rfl

theorem length_valueList {shortCircuit : Bool} {read : Leaf → Word} {es : List Expr} {vs : List Word}
    (found : valueList shortCircuit read es = .ok vs) : vs.length = es.length := by
  induction es generalizing vs with
  | nil =>
    rw [valueList_nil] at found
    cases found
    rfl
  | cons e es ih =>
    rw [valueList_cons] at found
    obtain ⟨v, _, found⟩ := bind_eq_ok found
    obtain ⟨ws, others, found⟩ := bind_eq_ok found
    cases found
    rw [List.length_cons, ih others, List.length_cons]

theorem value_test {op : Operator} (test : op = .mem ∨ op = .notMem) (tested : Expr)
    (members : List Expr) :
    value shortCircuit read (.node op [tested, .node .set members]) = (do
      let v ← value shortCircuit read tested
      let vs ← valueList shortCircuit read members
      membership (decide (op = .mem)) v vs) := by
  rcases test with rfl | rfl <;> cases shortCircuit <;> rfl

theorem strict_plain {op : Operator} (plain : Plain op) (args : List Expr) :
    strict read (.node op args) = (do
      let vs ← strictList read args
      op.apply vs) := by
  obtain ⟨notSet, notMem, notNotMem⟩ := plain
  cases op <;> first | contradiction | rfl

theorem lazy_plain {op : Operator} (plain : Plain op) (first : Expr) (others : List Expr) :
    lazy read (.node op (first :: others)) = (do
      let v ← lazy read first
      match if first.isBoolean then op.decided? v else none with
      | some w => return w
      | none => do
        let vs ← lazyList read others
        op.apply (v :: vs)) := by
  obtain ⟨notSet, notMem, notNotMem⟩ := plain
  cases op <;> first | contradiction | rfl

theorem value_plain {op : Operator} (plain : Plain op) (first : Expr) (others : List Expr) :
    value shortCircuit read (.node op (first :: others)) = (do
      let v ← value shortCircuit read first
      match if shortCircuit && first.isBoolean then op.decided? v else none with
      | some w => return w
      | none => do
        let vs ← valueList shortCircuit read others
        op.apply (v :: vs)) := by
  cases shortCircuit with
  | true => exact lazy_plain read plain first others
  | false =>
    change strict read _ = _
    rw [strict_plain read plain, strictList]
    simp only [bind_assoc, pure_bind]
    rfl

theorem value_truth {e : Expr} (valid : e.WellFormed) (boolean : e.isBoolean) {v : Word}
    (found : value shortCircuit read e = .ok v) : v = 0 ∨ v = 1 := by
  cases valid with
  | leaf concrete => cases boolean
  | noMembers => cases boolean
  | test test first rest =>
    rw [value_test shortCircuit read test] at found
    obtain ⟨_, _, found⟩ := bind_eq_ok found
    obtain ⟨_, _, found⟩ := bind_eq_ok found
    exact membership_truth found
  | operator plain arity each =>
    obtain ⟨first, others, rfl⟩ := List.exists_cons_of_ne_nil (plain.args_ne_nil arity)
    rw [value_plain shortCircuit read plain] at found
    obtain ⟨w, _, found⟩ := bind_eq_ok found
    split at found
    · rename_i decides
      cases found
      split at decides
      · exact Operator.decided?_truth decides
      · cases decides
    · obtain ⟨_, _, found⟩ := bind_eq_ok found
      exact Operator.apply_truth boolean found

end Intension.Expr
