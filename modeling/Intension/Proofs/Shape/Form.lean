import Mathlib.Data.List.Basic
import Mathlib.Tactic.Tauto
import Intension.Template.Fit

namespace Intension.Expr

def IsVariable : Expr → Prop
  | .leaf (.var _) => True
  | _ => False

def IsConstant : Expr → Prop
  | .leaf (.const _) => True
  | _ => False

/-- A variable or a constant. -/
def IsSimple (e : Expr) : Prop := e.IsVariable ∨ e.IsConstant

/-- An operator of some kind on two operands, each of its own form. -/
def Binary (operator : Operator → Prop) (first second : Expr → Prop) : Expr → Prop
  | .node op [a, b] => operator op ∧ first a ∧ second b
  | _ => False

/-- An operator of some kind on at least so many operands, all of one form. -/
def Variadic (operator : Operator → Prop) (least : Nat) (operand : Expr → Prop) : Expr → Prop
  | .node op args => operator op ∧ least ≤ args.length ∧ ∀ arg ∈ args, operand arg
  | .leaf _ => False

/-- A relation between two operands, of which one has the first form and the other the second. -/
def Relates (side other : Expr → Prop) (e : Expr) : Prop :=
  e.Binary (·.isRelational) side other ∨ e.Binary (·.isRelational) other side

def IsArithmetic : Expr → Prop := Binary (·.isArithmetic) IsVariable IsSimple

def IsWeighted : Expr → Prop := Binary (· = .mul) IsVariable IsConstant

def IsProduct : Expr → Prop := Binary (· = .mul) IsVariable IsVariable

def IsLinear : Expr → Prop := Variadic (· = .add) 2 (fun term => term.IsVariable ∨ term.IsWeighted)

def IsSumOfProducts : Expr → Prop := Variadic (· = .add) 2 IsProduct

/-- A least or greatest value of at least so many variables. -/
def IsExtremum (least : Nat) : Expr → Prop :=
  Variadic (fun op => op = .min ∨ op = .max) least IsVariable

/-- A sum or an extremum of two variables. -/
def IsTwofold : Expr → Prop := Binary (fun op => op = .add ∨ op = .min ∨ op = .max) IsVariable IsVariable

variable {operator : Operator → Prop} {first second operand side other : Expr → Prop} {least : Nat}

theorem binary_iff {e : Expr} :
    e.Binary operator first second ↔
      ∃ op a b, e = .node op [a, b] ∧ operator op ∧ first a ∧ second b := by
  constructor
  · intro holds
    unfold Binary at holds
    split at holds
    · exact ⟨_, _, _, rfl, holds⟩
    · contradiction
  · rintro ⟨op, a, b, rfl, holds⟩
    exact holds

theorem binary_or {kind : Operator → Prop} {e : Expr} :
    e.Binary (fun op => operator op ∨ kind op) first second ↔
      e.Binary operator first second ∨ e.Binary kind first second := by
  unfold Binary
  split
  · exact or_and_right
  · exact or_self_iff.symm

theorem isVar_iff {e : Expr} : e.isVar ↔ e.IsVariable := by
  rcases e with (_ | _ | _ | _) | _ <;> simp [isVar, var?, leaf?, Leaf.var?, IsVariable]

theorem isConst_iff {e : Expr} : e.isConst ↔ e.IsConstant := by
  rcases e with (_ | _ | _ | _) | _ <;> simp [isConst, const?, leaf?, Leaf.const?, IsConstant]

/-- A test of the two terms of a sum. -/
theorem sum_test_iff (test : Expr → Expr → Bool) (tests : ∀ a b, test a b ↔ first a ∧ second b) {e : Expr} :
    (match e with
      | .node .add [a, b] => test a b
      | _ => false) = true ↔ e.Binary (· = .add) first second := by
  split
  · rename_i a b
    exact (tests a b).trans (and_iff_right rfl).symm
  · rename_i other
    refine iff_of_false Bool.false_ne_true fun holds => ?_
    obtain ⟨_, a, b, rfl, rfl, _⟩ := binary_iff.mp holds
    exact other a b rfl

theorem consistsOf_iff {holds : Operator → Bool} {form : Expr → Bool} {e : Expr} :
    e.consistsOf holds least form ↔ e.Variadic (holds ·) least (form ·) := by
  cases e <;> simp [consistsOf, Variadic, and_assoc]

theorem not_isSimple_node {op : Operator} {args : List Expr} : ¬ (Expr.node op args).IsSimple := by
  rintro (named | constant)
  · exact named
  · exact constant

theorem not_binary_of_isSimple {e : Expr} (simple : e.IsSimple) : ¬ e.Binary operator first second := by
  intro holds
  obtain ⟨op, a, b, rfl, _⟩ := binary_iff.mp holds
  exact not_isSimple_node simple

theorem not_isSimple_of_isArithmetic {e : Expr} (arithmetic : e.IsArithmetic) : ¬ e.IsSimple :=
  fun simple => not_binary_of_isSimple simple arithmetic

theorem not_variadic_of_isSimple {e : Expr} (simple : e.IsSimple) : ¬ e.Variadic operator least operand := by
  intro holds
  cases e with
  | leaf l => exact holds
  | node op args => exact not_isSimple_node simple

theorem not_isVariable_of_isConstant {e : Expr} (constant : e.IsConstant) : ¬ e.IsVariable := by
  intro named
  rcases e with (_ | _ | _ | _) | _ <;> contradiction

/-- An operator and an operand of it that have both forms. -/
theorem variadic_meet {kind : Operator → Prop} {form : Expr → Prop} {more : Nat} {e : Expr}
    (once : e.Variadic operator (least + 1) operand) (again : e.Variadic kind more form) :
    ∃ op a, operator op ∧ kind op ∧ operand a ∧ form a := by
  cases e with
  | leaf l => exact once.elim
  | node op args =>
    obtain ⟨root, length, each⟩ := once
    obtain ⟨a, rest, rfl⟩ := List.exists_cons_of_length_pos (Nat.lt_of_lt_of_le (Nat.succ_pos _) length)
    exact ⟨op, a, root, again.1, each a List.mem_cons_self, again.2.2 a List.mem_cons_self⟩

theorem Relates.symm {e : Expr} (relates : Relates side other e) : Relates other side e := Or.symm relates

theorem relates_pair {op : Operator} {a b : Expr} :
    Relates side other (.node op [a, b]) ↔ op.isRelational ∧ (side a ∧ other b ∨ other a ∧ side b) :=
  and_or_left.symm

theorem Relates.root {e : Expr} (relates : Relates side other e) :
    ∃ op a b, e = .node op [a, b] ∧ op.isRelational := by
  rcases relates with holds | holds <;>
    obtain ⟨op, a, b, rfl, relational, _⟩ := binary_iff.mp holds <;>
    exact ⟨op, a, b, rfl, relational⟩

theorem Relates.mono {sides others : Expr → Prop} {e : Expr} (relates : Relates side other e)
    (first : ∀ a, side a → sides a) (second : ∀ a, other a → others a) : Relates sides others e := by
  obtain ⟨op, a, b, rfl, _⟩ := relates.root
  obtain ⟨relational, forms⟩ := relates_pair.mp relates
  exact relates_pair.mpr ⟨relational, forms.imp (And.imp (first a) (second b))
    (And.imp (second a) (first b))⟩

theorem relates_or {sides : Expr → Prop} {e : Expr} :
    Relates (fun a => side a ∨ sides a) other e ↔ Relates side other e ∨ Relates sides other e := by
  constructor
  · intro relates
    obtain ⟨op, a, b, rfl, relational⟩ := relates.root
    simp only [relates_pair] at relates ⊢
    tauto
  · rintro (relates | relates)
    · exact relates.mono (fun _ => .inl) (fun _ => id)
    · exact relates.mono (fun _ => .inr) (fun _ => id)

/-- Where no expression has the first form of one and the second form of the other, the operands of a
    relation cannot have changed places. -/
theorem Relates.and {sides others : Expr → Prop} {e : Expr} (relates : Relates side other e)
    (again : Relates sides others e) (apart : ∀ a, side a → ¬ others a) :
    Relates (fun a => side a ∧ sides a) (fun b => other b ∧ others b) e := by
  obtain ⟨op, a, b, rfl, _⟩ := relates.root
  obtain ⟨relational, forms⟩ := relates_pair.mp relates
  obtain ⟨_, more⟩ := relates_pair.mp again
  refine relates_pair.mpr ⟨relational, ?_⟩
  rcases forms with ⟨left, right⟩ | ⟨left, right⟩ <;> rcases more with ⟨first, second⟩ | ⟨first, second⟩
  · exact .inl ⟨⟨left, first⟩, right, second⟩
  · exact absurd first (apart a left)
  · exact absurd second (apart b right)
  · exact .inr ⟨⟨left, first⟩, right, second⟩

theorem Relates.elim {e : Expr} (relates : Relates side other e) (none : ∀ a, ¬ side a) : False := by
  obtain ⟨op, a, b, rfl, _⟩ := relates.root
  rcases (relates_pair.mp relates).2 with ⟨left, _⟩ | ⟨_, right⟩
  · exact none a left
  · exact none b right

end Intension.Expr
