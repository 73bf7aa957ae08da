import Intension.Proofs.Operator.Gives

namespace Intension.Operator

/-- The operands that an operator is performed on: as many as it accepts, and for a membership test the
    tested value, the members and their number, which can be any word here. -/
inductive Takes : Operator → List Word → Prop
  | plain {op : Operator} {vs : List Word} (plain : Expr.Plain op)
    (accepted : op.arity.accepts vs.length) : Takes op vs
  | test {op : Operator} (test : op = mem ∨ op = notMem) (v count : Word) (members : List Word) :
    Takes op (v :: (members ++ [count]))

/-- The faults that an operator can have on its operands. -/
inductive Fails : Operator → List Word → Fault → Prop
  | divisionByZero (a : Word) : Fails div [a, 0] .divisionByZero
  | moduloByZero (a : Word) : Fails mod [a, 0] .moduloByZero
  | negativeExponent (a : Word) {e : Word} (negative : e.toInt < 0) :
    Fails pow [a, e] (.negativeExponent e)
  | overflow (op : Operator) (vs : List Word) : Fails op vs (.overflow op)

theorem fails_inRange {op : Operator} (vs : List Word) {n : Int} {fault : Fault}
    (found : inRange op n = .error fault) : Fails op vs fault := by
  rw [inRange_error found]
  exact .overflow op vs

theorem fails_power {a e : Word} {fault : Fault} (found : power a e = .error fault) :
    Fails pow [a, e] fault := by
  unfold power at found
  split at found
  · rename_i negative
    cases found
    exact .negativeExponent a negative
  · split at found
    · cases found
      exact .overflow pow _
    · exact fails_inRange _ found

theorem fails_of_faults {op : Operator} (faulty : op.faults) {vs : List Word}
    (accepted : op.arity.accepts vs.length) {fault : Fault} (found : op.apply vs = .error fault) :
    Fails op vs fault := by
  cases op with
  | neg | abs | sqr =>
    obtain ⟨a, rfl⟩ := List.length_eq_one_iff.mp (of_decide_eq_true accepted)
    exact fails_inRange _ found
  | sub =>
    obtain ⟨a, b, rfl⟩ := List.length_eq_two.mp (of_decide_eq_true accepted)
    exact fails_inRange _ found
  | dist =>
    obtain ⟨a, b, rfl⟩ := List.length_eq_two.mp (of_decide_eq_true accepted)
    rcases bind_eq_error found with first | ⟨difference, _, second⟩
    · exact fails_inRange _ first
    · exact fails_inRange _ second
  | pow =>
    obtain ⟨a, e, rfl⟩ := List.length_eq_two.mp (of_decide_eq_true accepted)
    exact fails_power found
  | div =>
    obtain ⟨a, b, rfl⟩ := List.length_eq_two.mp (of_decide_eq_true accepted)
    simp only [apply] at found
    split at found
    · rename_i zero
      cases found
      rw [zero]
      exact .divisionByZero a
    · exact fails_inRange _ found
  | mod =>
    obtain ⟨a, b, rfl⟩ := List.length_eq_two.mp (of_decide_eq_true accepted)
    simp only [apply] at found
    split at found
    · rename_i zero
      cases found
      rw [zero]
      exact .moduloByZero a
    · rcases bind_eq_error found with first | ⟨quotient, _, second⟩
      · exact fails_inRange _ first
      · exact fails_inRange _ second
  | _ => contradiction

theorem fails_of_apply {op : Operator} {vs : List Word} (takes : op.Takes vs) {fault : Fault}
    (found : op.apply vs = .error fault) : Fails op vs fault := by
  cases takes with
  | test test v count members =>
    rw [apply_test test] at found
    cases found
  | plain plain accepted =>
    by_cases fold : op = add ∨ op = mul
    · rw [apply_fold_error fold (plain.args_ne_nil accepted) found]
      exact .overflow op vs
    by_cases faulty : op.faults
    · exact fails_of_faults faulty accepted found
    · obtain ⟨v, applied⟩ := apply_ok_of_not_faults plain faulty fold accepted
      cases applied.symm.trans found

/-- A membership test looks at the members only, and not at the operand behind them. -/
theorem exact_members {op : Operator} (test : op = mem ∨ op = notMem) (v count : Int)
    (members : List Int) :
    op.exact (v :: (members ++ [count])) = some (truth (v ∈ members ↔ op = mem)) := by
  obtain ⟨first, others, split, kept⟩ := append_singleton_eq_cons members count
  rw [split]
  rcases test with rfl | rfl
  · simp only [exact, kept, iff_true]
  · simp only [exact, kept, reduceCtorEq, iff_false]

theorem exact_of_takes {op : Operator} {vs : List Word} (takes : op.Takes vs) {r : Word}
    (applied : op.apply vs = .ok r) : op.exact (vs.map Int64.toInt) = some r.toInt := by
  cases takes with
  | plain plain accepted => exact exact_of_apply plain accepted applied
  | test test v count members =>
    have injective : Function.Injective Int64.toInt := fun _ _ => Int64.toInt_inj.mp
    rw [apply_test test] at applied
    cases applied
    rw [List.map_cons, List.map_append, List.map_singleton, exact_members test, toInt_ofBool]
    refine congrArg some (truth_congr ?_)
    rw [List.mem_map_of_injective injective]
    simp

theorem exists_apply_of_boolean {op : Operator}
    (total : op.category = .boolean ∨ op = min ∨ op = max ∨ op = ite) {vs : List Word}
    (takes : op.Takes vs) : ∃ r, op.apply vs = .ok r := by
  cases takes with
  | test test v count members => exact ⟨_, apply_test test v count members⟩
  | plain plain accepted =>
    have safe : ¬ op.faults := by cases op <;> simp_all [faults, category]
    have noFold : ¬ (op = add ∨ op = mul) := by cases op <;> simp_all [category]
    exact apply_ok_of_not_faults plain safe noFold accepted

/-- The value of an operator is exact. Faults other than overflows come from a zero divisor or a negative
    exponent alone, and tests, connectives, extrema and conditionals always have a value. -/
theorem apply_precise {op : Operator} {vs : List Word} (takes : op.Takes vs) :
    (∀ r, op.apply vs = .ok r → op.exact (vs.map Int64.toInt) = some r.toInt) ∧
    (op.apply vs = .error .divisionByZero ↔ op = div ∧ ∃ a, vs = [a, 0]) ∧
    (op.apply vs = .error .moduloByZero ↔ op = mod ∧ ∃ a, vs = [a, 0]) ∧
    (∀ e, op.apply vs = .error (.negativeExponent e) ↔
      op = pow ∧ e.toInt < 0 ∧ ∃ a, vs = [a, e]) ∧
    (op.category = .boolean ∨ op = min ∨ op = max ∨ op = ite → ∃ r, op.apply vs = .ok r) ∧
    (op.category = .boolean → ∀ r, op.apply vs = .ok r → r = 0 ∨ r = 1) := by
  refine ⟨fun r applied => exact_of_takes takes applied, ?_, ?_, ?_,
    fun total => exists_apply_of_boolean total takes,
    fun boolean r applied => apply_truth (decide_eq_true boolean) applied⟩
  · constructor
    · intro found
      cases fails_of_apply takes found with
      | divisionByZero a => exact ⟨rfl, a, rfl⟩
    · rintro ⟨rfl, a, rfl⟩
      rfl
  · constructor
    · intro found
      cases fails_of_apply takes found with
      | moduloByZero a => exact ⟨rfl, a, rfl⟩
    · rintro ⟨rfl, a, rfl⟩
      rfl
  · intro e
    constructor
    · intro found
      cases fails_of_apply takes found with
      | negativeExponent a negative => exact ⟨rfl, negative, a, rfl⟩
    · rintro ⟨rfl, negative, a, rfl⟩
      exact if_pos negative

/-- The tested value is no member but the number of members, and the power is the least word. -/
theorem apply_precise_edges :
    (apply mem [2, 5, 3, 2] = .ok 0 ∧ exact mem [2, 5, 3, 2] = some 0) ∧
      (apply pow [-2, 63] = .ok Int64.minValue ∧ exact pow [-2, 63] = some (-9223372036854775808)) ∧
      apply div [7, 0] = .error .divisionByZero ∧ apply mod [7, 0] = .error .moduloByZero ∧
      apply pow [0, -1] = .error (.negativeExponent (-1)) ∧
      (∃ r, apply max [3, -9, 4] = .ok r) ∧ ∀ r, apply ne [3, -9, 3] = .ok r → r = 0 ∨ r = 1 := by
  have member : apply mem [2, 5, 3, 2] = .ok 0 := rfl
  have least : apply pow [-2, 63] = .ok Int64.minValue := rfl
  have pair (op : Operator) (plain : Expr.Plain op) (two : op.arity = .exactly 2) (v w : Word) :
      Takes op [v, w] := .plain plain (by rw [two]; rfl)
  refine ⟨⟨member, (apply_precise (.test (.inl rfl) 2 2 [5, 3])).1 0 member⟩, ⟨least, ?_⟩, ?_, ?_, ?_, ?_, ?_⟩
  · exact (apply_precise (pair pow (by decide) rfl (-2) 63)).1 _ least
  · exact (apply_precise (pair div (by decide) rfl 7 0)).2.1.mpr ⟨rfl, 7, rfl⟩
  · exact (apply_precise (pair mod (by decide) rfl 7 0)).2.2.1.mpr ⟨rfl, 7, rfl⟩
  · exact ((apply_precise (pair pow (by decide) rfl 0 (-1))).2.2.2.1 (-1)).mpr ⟨rfl, by decide, 0, rfl⟩
  · exact (apply_precise (.plain (by decide) rfl)).2.2.2.2.1 (.inr (.inr (.inl rfl)))
  · exact (apply_precise (.plain (by decide) rfl)).2.2.2.2.2 rfl

end Intension.Operator
