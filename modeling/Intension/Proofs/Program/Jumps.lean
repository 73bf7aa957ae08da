import Intension.Proofs.Program.Code

namespace Intension.Program

open Intension.Expr (code codeList code_plain code_test)

/-- The jump of an instruction before the given code. -/
def jumpBefore (shortCircuit boolean : Bool) (rest : List Instruction) : Option Jump :=
  if shortCircuit && boolean then jumpFrom 1 0 rest else none

/-- The search for a jump passes over the code of an expression and finds one more value. -/
def Passes (slot : Variable → Nat) (e : Expr) : Prop :=
  ∀ height passed rest, 0 < height →
    jumpFrom height passed (e.code slot ++ rest) =
      jumpFrom (height + 1) (passed + (e.code slot).length) rest

theorem jumpFrom_value {i : Instruction} (leaf : i.arity = 0) {height : Nat} (positive : 0 < height)
    (passed : Nat) (rest : List Instruction) :
    jumpFrom height passed (i :: rest) = jumpFrom (height + 1) (passed + 1) rest := by
  rw [jumpFrom, leaf, if_neg (by omega), if_neg (by omega), Nat.sub_zero]

theorem jumpFrom_over {i : Instruction} {height : Nat} (below : i.arity < height) (passed : Nat)
    (rest : List Instruction) :
    jumpFrom height passed (i :: rest) = jumpFrom (height - i.arity + 1) (passed + 1) rest := by
  rw [jumpFrom, if_neg (by omega), if_neg (by omega)]

theorem jumpFrom_taken (i : Instruction) (passed : Nat) (rest : List Instruction) :
    jumpFrom i.arity passed (i :: rest) =
      i.connective?.map (fun connective => ⟨connective, passed⟩) := by
  rw [jumpFrom, if_neg (by omega), if_pos rfl]

theorem jumpFrom_short {i : Instruction} {height : Nat} (short : height < i.arity) (passed : Nat)
    (rest : List Instruction) : jumpFrom height passed (i :: rest) = none := by
  rw [jumpFrom, if_pos short]

theorem le_of_jumpFrom {code : List Instruction} {height passed target : Nat} {c : Connective}
    (found : jumpFrom height passed code = some ⟨c, target⟩) : passed ≤ target := by
  induction code generalizing height passed with
  | nil => cases found
  | cons i code ih =>
    simp only [jumpFrom] at found
    split at found
    · cases found
    · split at found
      · obtain ⟨_, _, same⟩ := Option.map_eq_some_iff.mp found
        cases same
        exact Nat.le_refl _
      · exact Nat.le_of_succ_le (ih found)

/-- The scan for a jump ends at the connective that takes all the values it has counted, or goes on
    behind an instruction that takes fewer. -/
theorem jumpFrom_cons_eq_some {i : Instruction} {rest : List Instruction} {height passed n : Nat}
    {c : Connective} (found : jumpFrom height passed (i :: rest) = some ⟨c, passed + n⟩) :
    (n = 0 ∧ i.arity = height ∧ i.connective? = some c) ∨
      ∃ m, n = m + 1 ∧ i.arity < height ∧
        jumpFrom (height - i.arity + 1) (passed + 1) rest = some ⟨c, passed + 1 + m⟩ := by
  rw [jumpFrom] at found
  split at found
  · cases found
  · split at found
    · rename_i arity
      obtain ⟨_, connective, same⟩ := Option.map_eq_some_iff.mp found
      injection same with same equal
      subst same
      exact .inl ⟨by omega, arity.symm, connective⟩
    · have later := le_of_jumpFrom found
      refine .inr ⟨n - 1, by omega, by omega, ?_⟩
      rw [found]
      congr 2
      omega

theorem connective_of_jumpFrom {code : List Instruction} {height passed n : Nat} {c : Connective}
    (found : jumpFrom height passed code = some ⟨c, passed + n⟩) :
    code[n]?.bind Instruction.connective? = some c := by
  induction code generalizing height passed n with
  | nil => cases found
  | cons i rest ih =>
    rcases jumpFrom_cons_eq_some found with ⟨rfl, _, connective⟩ | ⟨m, rfl, _, found⟩
    · exact connective
    · exact ih found

theorem jumpFrom_codeList {slot : Variable → Nat} {es : List Expr} (each : ∀ e ∈ es, Passes slot e)
    {height : Nat} (positive : 0 < height) (passed : Nat) (rest : List Instruction) :
    jumpFrom height passed (codeList slot es ++ rest) =
      jumpFrom (height + es.length) (passed + (codeList slot es).length) rest := by
  induction es generalizing height passed with
  | nil => rfl
  | cons e es ih =>
    rw [codeList, List.append_assoc, each e (by simp) _ _ _ positive,
      ih (fun f member => each f (List.mem_cons_of_mem _ member)) (by omega), List.length_cons,
      List.length_append, Nat.add_assoc, Nat.add_assoc, Nat.add_comm 1]

section Operands

variable {slot : Variable → Nat} {es : List Expr} (each : ∀ e ∈ es, Passes slot e)

include each

/-- A first operand has a jump where its operator is a connective. -/
theorem jumpFrom_first (op : Operator) (rest : List Instruction) :
    jumpFrom 1 0 (codeList slot es ++ .apply op (es.length + 1) :: rest) =
      (Instruction.apply op (es.length + 1)).connective?.map
        (fun connective => ⟨connective, (codeList slot es).length⟩) := by
  rw [jumpFrom_codeList each Nat.zero_lt_one, Nat.add_comm 1, Nat.zero_add]
  exact jumpFrom_taken (.apply op (es.length + 1)) _ rest

/-- An operand that has others before it has no jump. -/
theorem jumpFrom_later (op : Operator) {arity : Nat} (more : es.length + 1 < arity)
    (rest : List Instruction) : jumpFrom 1 0 (codeList slot es ++ .apply op arity :: rest) = none := by
  rw [jumpFrom_codeList each Nat.zero_lt_one]
  exact jumpFrom_short (by simp only [Instruction.arity]; omega) _ rest

theorem jumpFrom_tested {op : Operator} (membership : op = .mem ∨ op = .notMem)
    (rest : List Instruction) :
    jumpFrom 1 0 (codeList slot es ++ .count es.length :: .apply op (es.length + 2) :: rest) = none := by
  have taken : 1 + es.length + 1 = (Instruction.apply op (es.length + 2)).arity := by
    simp only [Instruction.arity]
    omega
  rw [jumpFrom_codeList each Nat.zero_lt_one, jumpFrom_value rfl (by omega), taken, jumpFrom_taken]
  rcases membership with rfl | rfl <;> rfl

end Operands

theorem jumpFrom_counted {height members : Nat} (positive : 0 < height) (bound : height ≤ members)
    (op : Operator) (passed : Nat) (rest : List Instruction) :
    jumpFrom height passed (.count members :: .apply op (members + 2) :: rest) = none := by
  rw [jumpFrom_value rfl positive]
  exact jumpFrom_short (by simp only [Instruction.arity]; omega) _ rest

theorem jumpFrom_member {slot : Variable → Nat} {es : List Expr} (each : ∀ e ∈ es, Passes slot e)
    (op : Operator) {members : Nat} (bound : es.length < members) (rest : List Instruction) :
    jumpFrom 1 0 (codeList slot es ++ .count members :: .apply op (members + 2) :: rest) = none := by
  rw [jumpFrom_codeList each Nat.zero_lt_one]
  exact jumpFrom_counted (by omega) (by omega) op _ rest

theorem passes_of_wellFormed {e : Expr} (valid : e.WellFormed) (slot : Variable → Nat) :
    Passes slot e := by
  induction valid with
  | leaf concrete =>
    intro height passed rest positive
    rename_i l
    have leaf : (l.instruction slot).arity = 0 := by cases l <;> rfl
    exact jumpFrom_value leaf positive passed rest
  | noMembers =>
    intro height passed rest positive
    exact jumpFrom_value rfl positive passed rest
  | test membership first others ihFirst ihOthers =>
    intro height passed rest positive
    rename_i op tested members
    rw [code_test membership, List.append_assoc, ihFirst _ _ _ positive, List.append_assoc,
      jumpFrom_codeList ihOthers (by omega)]
    simp only [List.cons_append, List.nil_append]
    rw [jumpFrom_value rfl (by omega), jumpFrom_over (by simp only [Instruction.arity]; omega)]
    simp only [Instruction.arity, List.length_append, List.length_cons, List.length_nil]
    congr 1 <;> omega
  | operator plain arity each ih =>
    intro height passed rest positive
    rw [code_plain plain, List.append_assoc, jumpFrom_codeList ih positive, List.singleton_append,
      jumpFrom_over (by simp only [Instruction.arity]; omega)]
    simp only [Instruction.arity, List.length_append, List.length_singleton]
    congr 1
    omega

end Intension.Program
