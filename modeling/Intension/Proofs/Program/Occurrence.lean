import Intension.Proofs.Expr.Measure
import Intension.Proofs.Expr.Value
import Intension.Proofs.Program.Code

namespace Intension.Expr

/-- An expression is another one or stands in it. Where operators follow their operands, its elements
    start at the given position. -/
inductive StandsIn (f : Expr) : Expr → Nat → Prop
  | whole : StandsIn f f 0
  | operand {op : Operator} {args before after : List Expr} {arg : Expr} {start : Nat}
      (split : args = before ++ arg :: after) (inside : StandsIn f arg start) :
      StandsIn f (.node op args) (sizeList before + start)

theorem standsIn_node {f : Expr} {op : Operator} {args : List Expr} {start : Nat} :
    f.StandsIn (.node op args) start ↔
      (f = .node op args ∧ start = 0) ∨
        ∃ before arg after inner, args = before ++ arg :: after ∧ start = sizeList before + inner ∧
          f.StandsIn arg inner := by
  constructor
  · intro inside
    cases inside with
    | whole => exact .inl ⟨rfl, rfl⟩
    | operand split inside => exact .inr ⟨_, _, _, _, split, rfl, inside⟩
  · rintro (⟨rfl, rfl⟩ | ⟨before, arg, after, inner, split, rfl, inside⟩)
    · exact .whole
    · exact .operand split inside

/-- What stands in an expression and is not all of it is an operand there. -/
theorem StandsIn.whole_or_operand {f e : Expr} {start : Nat} (inside : f.StandsIn e start) :
    (f = e ∧ start = 0) ∨
      ∃ op before after outer, (Expr.node op (before ++ f :: after)).StandsIn e outer ∧
        start = outer + sizeList before := by
  induction inside with
  | whole => exact .inl ⟨rfl, rfl⟩
  | @operand op args before after arg start split _ ih =>
    rcases ih with ⟨rfl, rfl⟩ | ⟨inner, others, behind, outer, inside, rfl⟩
    · exact .inr ⟨op, before, after, 0, split ▸ .whole, by omega⟩
    · exact .inr ⟨inner, others, behind, sizeList before + outer, .operand split inside, by omega⟩

theorem StandsIn.arg {op : Operator} {before after : List Expr} {f e : Expr} {start : Nat}
    (inside : (Expr.node op (before ++ f :: after)).StandsIn e start) :
    f.StandsIn e (start + sizeList before) := by
  induction inside with
  | whole =>
    have first : f.StandsIn (.node op (before ++ f :: after)) (sizeList before + 0) := .operand rfl .whole
    rwa [Nat.add_comm] at first
  | operand split _ ih =>
    rw [Nat.add_assoc]
    exact .operand split ih

theorem exists_operand_of_lt {es : List Expr} {position : Nat} (bound : position < sizeList es) :
    ∃ before e after inner, es = before ++ e :: after ∧ position = sizeList before + inner ∧
      inner < e.size := by
  induction es generalizing position with
  | nil => exact absurd bound (Nat.not_lt_zero position)
  | cons e es ih =>
    rw [sizeList] at bound
    by_cases first : position < e.size
    · exact ⟨[], e, es, position, rfl, by rw [sizeList, Nat.zero_add], first⟩
    · have behind : position - e.size < sizeList es := by omega
      obtain ⟨before, other, after, inner, rfl, same, inside⟩ := ih behind
      exact ⟨e :: before, other, after, inner, rfl, by rw [sizeList]; omega, inside⟩

/-- Every element of an expression is the last one of something that stands in it. -/
theorem exists_standsIn {e : Expr} {position : Nat} (bound : position < e.size) :
    ∃ (f : Expr) (start : Nat), f.StandsIn e start ∧ position + 1 = start + f.size := by
  induction e using Expr.induction generalizing position with
  | leaf l =>
    rw [size] at bound
    exact ⟨.leaf l, 0, .whole, by rw [size]; omega⟩
  | node op args ih =>
    rw [size] at bound
    by_cases last : position = sizeList args
    · exact ⟨.node op args, 0, .whole, by rw [size]; omega⟩
    · have below : position < sizeList args := by omega
      obtain ⟨before, arg, after, inner, split, rfl, inside⟩ := exists_operand_of_lt below
      obtain ⟨f, start, found, same⟩ := ih arg (by simp [split]) inside
      exact ⟨f, sizeList before + start, .operand split found, by omega⟩

section Code

variable (slot : Variable → Nat)

theorem length_code (e : Expr) : (code slot e).length = e.size := by
  induction e using Expr.induction with
  | leaf l => rfl
  | node op args ih =>
    rw [code, List.length_append, codeList_eq_flatMap, length_flatMap_eq_sizeList ih, List.length_singleton,
      size, Nat.add_comm]

theorem length_codeList (es : List Expr) : (codeList slot es).length = sizeList es := by
  rw [codeList_eq_flatMap, length_flatMap_eq_sizeList (fun e _ => length_code slot e)]

theorem drop_code (e : Expr) (rest : List Instruction) : (code slot e ++ rest).drop e.size = rest := by
  rw [← length_code slot e, List.drop_left]

theorem drop_codeList (before : List Expr) (e : Expr) (after : List Expr) (position : Nat)
    (rest : List Instruction) :
    (codeList slot (before ++ e :: after) ++ rest).drop (sizeList before + position) =
      (code slot e ++ (codeList slot after ++ rest)).drop position := by
  have split : codeList slot (before ++ e :: after) =
      codeList slot before ++ (code slot e ++ codeList slot after) := by
    simp only [codeList_eq_flatMap, List.flatMap_append, List.flatMap_cons]
  rw [split, List.append_assoc, List.append_assoc, ← length_codeList slot before,
    List.drop_length_add_append]

theorem getLast?_code (e : Expr) : (code slot e).getLast? = some (root slot e) := by
  cases e with
  | leaf l => rfl
  | node op args => rw [code, List.getLast?_concat]

theorem isBoolean_root (e : Expr) : (root slot e).isBoolean = e.isBoolean := by
  cases e with
  | leaf l => cases l <;> rfl
  | node op args => cases op <;> rfl

/-- The code of what stands in an expression starts at its position in the code of the expression. -/
theorem StandsIn.drop_code {f e : Expr} {start : Nat} (inside : f.StandsIn e start)
    (rest : List Instruction) : ∃ behind, (code slot e ++ rest).drop start = code slot f ++ behind := by
  induction inside generalizing rest with
  | whole => exact ⟨rest, rfl⟩
  | @operand op args before after arg start split _ ih =>
    subst split
    rw [code, List.append_assoc, drop_codeList]
    exact ih _

theorem StandsIn.getElem?_code {f e : Expr} {start position : Nat} (inside : f.StandsIn e start)
    (last : position + 1 = start + f.size) : (code slot e)[position]? = some (root slot f) := by
  obtain ⟨behind, segment⟩ := inside.drop_code slot []
  rw [List.append_nil] at segment
  have positive : 0 < f.size := by cases f <;> rw [size] <;> omega
  have bound : f.size - 1 < (code slot f).length := by rw [length_code]; omega
  have same : position = start + (f.size - 1) := by omega
  rw [same, ← List.getElem?_drop, segment, List.getElem?_append_left bound, ← length_code slot f,
    ← List.getLast?_eq_getElem?, getLast?_code]

end Code

end Intension.Expr
