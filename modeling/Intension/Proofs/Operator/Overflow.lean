import Mathlib.Data.List.Infix
import Intension.Proofs.Operator.Faults

namespace Intension.Operator

/-- The exact result on these operands is no word. -/
def Exceeds (op : Operator) (vs : List Word) : Prop :=
  ∃ n, op.exact (vs.map Int64.toInt) = some n ∧ Word.ofInt? n = none

/-- The operands on which an operator overflows. Two overflows say nothing of the result: a remainder is
    refused with its quotient, and a power for an exponent of more than 32 bits. -/
inductive Overflows : Operator → List Word → Prop
  | result {op : Operator} {vs : List Word} (exceeds : op.Exceeds vs) : Overflows op vs
  | partialResult {op : Operator} {first vs : List Word} (fold : op = add ∨ op = mul)
    (leading : first <+: vs) (exceeds : op.Exceeds first) : Overflows op vs
  | quotient : Overflows mod [Int64.minValue, -1]
  | exponent (base : Word) {e : Word} (long : (UInt32.size : Int) ≤ e.toInt) : Overflows pow [base, e]

variable {op : Operator} {vs : List Word}

theorem exceeds_iff {n : Int} (exact : op.exact (vs.map Int64.toInt) = some n) :
    op.Exceeds vs ↔ Word.ofInt? n = none := by
  constructor
  · rintro ⟨m, other, none⟩
    rw [exact] at other
    cases other
    exact none
  · intro none
    exact ⟨n, exact, none⟩

theorem inRange_overflow_iff {n : Int} :
    inRange op n = .error (.overflow op) ↔ Word.ofInt? n = none := by
  rw [inRange]
  cases Word.ofInt? n <;> simp

theorem fold_overflow_iff (f : Int → Int → Int) (v : Word) :
    vs.foldlM (fun total w => inRange op (f total.toInt w.toInt)) v = .error (.overflow op) ↔
      ∃ first, first <+: vs ∧ Word.ofInt? ((first.map Int64.toInt).foldl f v.toInt) = none := by
  induction vs generalizing v with
  | nil => simp [Word.ofInt?_toInt]
  | cons w vs ih =>
    rw [List.foldlM_cons]
    cases step : Word.ofInt? (f v.toInt w.toInt) with
    | none =>
      rw [inRange_overflow_iff.mpr step, error_bind]
      exact ⟨fun _ => ⟨[w], ⟨vs, rfl⟩, step⟩, fun _ => rfl⟩
    | some total =>
      have value := Word.ofInt?_eq_some_iff.mp step
      rw [inRange_of_toInt total value, ok_bind, ih, value]
      constructor
      · rintro ⟨first, leading, none⟩
        exact ⟨w :: first, (List.prefix_cons_inj w).mpr leading, none⟩
      · rintro ⟨first, leading, none⟩
        cases first with
        | nil =>
          rw [List.map_nil, List.foldl_nil, Word.ofInt?_toInt] at none
          cases none
        | cons u first =>
          obtain ⟨rfl, rest⟩ := List.cons_prefix_cons.mp leading
          exact ⟨first, rest, none⟩

/-- The exact value of a sum or a product, taken from the left. -/
theorem exists_exact_fold (fold : op = add ∨ op = mul) : ∃ f : Int → Int → Int,
    (∀ v vs, op.apply (v :: vs) = vs.foldlM (fun total w => inRange op (f total.toInt w.toInt)) v) ∧
      ∀ n ns, op.exact (n :: ns) = some (ns.foldl f n) := by
  rcases fold with rfl | rfl
  · refine ⟨(· + ·), fun _ _ => rfl, ?_⟩
    intro n ns
    rw [exact, List.sum_eq_foldl, List.foldl_cons, zero_add]
  · refine ⟨(· * ·), fun _ _ => rfl, ?_⟩
    intro n ns
    rw [exact, List.prod_eq_foldl, List.foldl_cons, one_mul]

theorem not_exceeds_nil (fold : op = add ∨ op = mul) : ¬ op.Exceeds [] := by
  rcases fold with rfl | rfl <;> rw [exceeds_iff rfl] <;> decide

theorem apply_fold_overflow_iff (fold : op = add ∨ op = mul) (nonempty : vs ≠ []) :
    op.apply vs = .error (.overflow op) ↔ ∃ first, first <+: vs ∧ op.Exceeds first := by
  obtain ⟨v, ws, rfl⟩ := List.exists_cons_of_ne_nil nonempty
  obtain ⟨f, applied, value⟩ := exists_exact_fold fold
  rw [applied, fold_overflow_iff]
  constructor
  · rintro ⟨first, leading, none⟩
    exact ⟨v :: first, (List.prefix_cons_inj v).mpr leading, _, value _ _, none⟩
  · rintro ⟨first, leading, exceeds⟩
    cases first with
    | nil => exact absurd exceeds (not_exceeds_nil fold)
    | cons u first =>
      obtain ⟨rfl, rest⟩ := List.cons_prefix_cons.mp leading
      exact ⟨first, rest, (exceeds_iff (value _ _)).mp exceeds⟩

/-- The least word divided by minus one is the only quotient that is no word. -/
theorem operands_of_quotient {a b : Word} (nonzero : b ≠ 0)
    (none : Word.ofInt? (a.toInt.tdiv b.toInt) = none) : a = Int64.minValue ∧ b = -1 := by
  have least := a.minValue_le_toInt
  have most := a.toInt_le
  have divisor : b.toInt ≠ 0 := fun zero => nonzero (toInt_eq_zero.mp zero)
  rw [Int64.toInt_minValue] at least
  rw [Int64.toInt_maxValue] at most
  rw [Word.ofInt?_eq_none_iff] at none
  have size : (a.toInt.tdiv b.toInt).natAbs = a.toInt.natAbs / b.toInt.natAbs := Int.natAbs_tdiv ..
  have unit : b.toInt.natAbs = 1 := by
    by_contra other
    have half : a.toInt.natAbs / b.toInt.natAbs ≤ a.toInt.natAbs / 2 :=
      Nat.div_le_div_left (by omega) (by decide)
    omega
  have negative : b.toInt = -1 := by
    by_contra other
    have one : b.toInt = 1 := by omega
    rw [one, Int.tdiv_one] at none
    omega
  rw [negative, Int.tdiv_neg, Int.tdiv_one] at none
  exact ⟨Int64.toInt_inj.mp (by rw [Int64.toInt_minValue]; omega), Int64.toInt_inj.mp negative⟩

theorem overflows_of_inRange {n : Int} (exact : op.exact (vs.map Int64.toInt) = some n)
    (found : inRange op n = .error (.overflow op)) : op.Overflows vs :=
  .result ((exceeds_iff exact).mpr (inRange_overflow_iff.mp found))

theorem overflows_power {a e : Word} (found : power a e = .error (.overflow pow)) :
    pow.Overflows [a, e] := by
  by_cases negative : e.toInt < 0
  · rw [power, if_pos negative] at found
    cases found
  · by_cases short : e.toInt < UInt32.size
    · rw [power_of_short (by omega) short] at found
      exact overflows_of_inRange (if_neg negative) found
    · exact .exponent a (by omega)

/-- The distance of two words whose difference is no word is no word either. -/
theorem overflows_dist {a b : Word} (found : apply dist [a, b] = .error (.overflow dist)) :
    dist.Overflows [a, b] := by
  refine .result ((exceeds_iff rfl).mpr ?_)
  rcases bind_eq_error found with first | ⟨difference, first, second⟩
  · rw [inRange_overflow_iff, Word.ofInt?_eq_none_iff] at first
    rw [Word.ofInt?_eq_none_iff]
    omega
  · rw [inRange_eq_ok first] at second
    exact inRange_overflow_iff.mp second

theorem overflows_mod {a b : Word} (found : apply mod [a, b] = .error (.overflow mod)) :
    mod.Overflows [a, b] := by
  simp only [apply] at found
  split at found
  · cases found
  · rename_i nonzero
    rcases bind_eq_error found with first | ⟨quotient, first, second⟩
    · obtain ⟨rfl, rfl⟩ := operands_of_quotient nonzero (inRange_overflow_iff.mp first)
      exact .quotient
    · exact overflows_of_inRange (if_neg (toInt_eq_zero.not.mpr nonzero)) second

theorem overflows_of_faults (faulty : op.faults) (accepted : op.arity.accepts vs.length)
    (found : op.apply vs = .error (.overflow op)) : op.Overflows vs := by
  cases op with
  | neg | abs | sqr =>
    obtain ⟨a, rfl⟩ := List.length_eq_one_iff.mp (of_decide_eq_true accepted)
    exact overflows_of_inRange rfl found
  | sub =>
    obtain ⟨a, b, rfl⟩ := List.length_eq_two.mp (of_decide_eq_true accepted)
    exact overflows_of_inRange rfl found
  | dist =>
    obtain ⟨a, b, rfl⟩ := List.length_eq_two.mp (of_decide_eq_true accepted)
    exact overflows_dist found
  | pow =>
    obtain ⟨a, e, rfl⟩ := List.length_eq_two.mp (of_decide_eq_true accepted)
    exact overflows_power found
  | mod =>
    obtain ⟨a, b, rfl⟩ := List.length_eq_two.mp (of_decide_eq_true accepted)
    exact overflows_mod found
  | div =>
    obtain ⟨a, b, rfl⟩ := List.length_eq_two.mp (of_decide_eq_true accepted)
    simp only [apply] at found
    split at found
    · cases found
    · rename_i nonzero
      exact overflows_of_inRange (if_neg (toInt_eq_zero.not.mpr nonzero)) found
  | _ => contradiction

theorem overflows_of_apply (takes : op.Takes vs) (found : op.apply vs = .error (.overflow op)) :
    op.Overflows vs := by
  cases takes with
  | test test v count members =>
    rw [apply_test test] at found
    cases found
  | plain plain accepted =>
    by_cases fold : op = add ∨ op = mul
    · obtain ⟨first, leading, exceeds⟩ :=
        (apply_fold_overflow_iff fold (plain.args_ne_nil accepted)).mp found
      exact .partialResult fold leading exceeds
    · by_cases faulty : op.faults
      · exact overflows_of_faults faulty accepted found
      · obtain ⟨v, applied⟩ := apply_ok_of_not_faults plain faulty fold accepted
        cases applied.symm.trans found

/-- An exact result is given, or there is an overflow. -/
theorem apply_of_exact (takes : op.Takes vs) {n : Int}
    (exact : op.exact (vs.map Int64.toInt) = some n) :
    (∃ r, op.apply vs = .ok r ∧ r.toInt = n) ∨ op.apply vs = .error (.overflow op) := by
  cases applied : op.apply vs with
  | ok r =>
    have value := exact_of_takes takes applied
    rw [exact] at value
    exact .inl ⟨r, rfl, (Option.some.inj value).symm⟩
  | error fault =>
    cases fails_of_apply takes applied with
    | overflow op vs => exact .inr rfl
    | divisionByZero a => cases exact
    | moduloByZero a => cases exact
    | negativeExponent a negative => cases (if_pos negative).symm.trans exact

theorem apply_of_overflows (takes : op.Takes vs) (overflows : op.Overflows vs) :
    op.apply vs = .error (.overflow op) := by
  cases overflows with
  | result exceeds =>
    obtain ⟨n, exact, none⟩ := exceeds
    rcases apply_of_exact takes exact with ⟨r, _, rfl⟩ | overflow
    · rw [Word.ofInt?_toInt] at none
      cases none
    · exact overflow
  | partialResult fold leading exceeds =>
    refine (apply_fold_overflow_iff fold ?_).mpr ⟨_, leading, exceeds⟩
    rintro rfl
    rw [List.prefix_nil.mp leading] at exceeds
    exact not_exceeds_nil fold exceeds
  | quotient => rfl
  | exponent base long =>
    rw [apply, power, if_neg (by omega), if_pos long]

/-- A remainder is smaller than its divisor. -/
theorem not_exceeds_mod {a b : Word} : ¬ mod.Exceeds [a, b] := by
  rintro ⟨n, exact, none⟩
  have least := b.minValue_le_toInt
  have most := b.toInt_le
  rw [Int64.toInt_minValue] at least
  rw [Int64.toInt_maxValue] at most
  rw [Word.ofInt?_eq_none_iff] at none
  simp only [List.map_cons, List.map_nil, Operator.exact] at exact
  split at exact
  · cases exact
  · rename_i nonzero
    cases exact
    have size : (a.toInt.tmod b.toInt).natAbs = a.toInt.natAbs % b.toInt.natAbs := Int.natAbs_tmod ..
    have bound := Nat.mod_lt a.toInt.natAbs (Int.natAbs_pos.mpr nonzero)
    omega

theorem apply_mod_of_quotient {a b : Word} (nonzero : b ≠ 0) (other : ¬ (a = Int64.minValue ∧ b = -1)) :
    ∃ r, apply mod [a, b] = .ok r ∧ r.toInt = a.toInt.tmod b.toInt := by
  have exact : Operator.exact mod ([a, b].map Int64.toInt) = some (a.toInt.tmod b.toInt) :=
    if_neg (toInt_eq_zero.not.mpr nonzero)
  rcases apply_of_exact (.plain (by decide) rfl) exact with given | overflow
  · exact given
  · cases overflows_mod overflow with
    | result exceeds => exact absurd exceeds not_exceeds_mod
    | partialResult fold _ _ => simp at fold
    | quotient => exact absurd ⟨rfl, rfl⟩ other

/-- An operator overflows exactly where its exact result is no word, or for a sum or a product the exact
    result on some first operands, and on two more occasions: when the quotient beside a remainder is no
    word, and when an exponent has more than 32 bits. -/
theorem apply_overflow_iff :
    (∀ (op : Operator) (vs : List Word), op.Takes vs → ∀ named : Operator,
      (op.apply vs = .error (.overflow named) ↔ named = op ∧ op.Overflows vs)) ∧
    (∀ a b : Word, b ≠ 0 → ¬ (a = Int64.minValue ∧ b = -1) →
      ∃ r, apply mod [a, b] = .ok r ∧ r.toInt = a.toInt.tmod b.toInt) ∧
    ∀ a e r : Word, 0 ≤ e.toInt → e.toInt < UInt32.size → r.toInt = a.toInt ^ e.toInt.toNat →
      apply pow [a, e] = .ok r := by
  refine ⟨?_, fun _ _ => apply_mod_of_quotient, ?_⟩
  · intro op vs takes named
    constructor
    · intro found
      cases fails_of_apply takes found with
      | overflow => exact ⟨rfl, overflows_of_apply takes found⟩
    · rintro ⟨rfl, overflows⟩
      exact apply_of_overflows takes overflows
  · intro a e r nonnegative short value
    rw [apply, power_of_short nonnegative short]
    exact inRange_of_toInt r value

/-- The exact sum is a word again, and the power is the least one. -/
theorem apply_overflow_iff_edges :
    (Takes add [Int64.maxValue, 1, -1] ∧ apply add [Int64.maxValue, 1, -1] = .error (.overflow add)) ∧
      (∃ r, apply mod [Int64.minValue, 7] = .ok r ∧ r.toInt = Int64.minValue.toInt.tmod 7) ∧
      apply pow [-2, 63] = .ok Int64.minValue := by
  have takes : Takes add [Int64.maxValue, 1, -1] := .plain (by decide) rfl
  refine ⟨⟨takes, ?_⟩, ?_, ?_⟩
  · refine (apply_overflow_iff.1 add _ takes add).mpr ⟨rfl, ?_⟩
    have exceeds : add.Exceeds [Int64.maxValue, 1] := ⟨_, rfl, rfl⟩
    exact .partialResult (.inl rfl) ⟨[-1], rfl⟩ exceeds
  · exact apply_overflow_iff.2.1 Int64.minValue 7 (by decide) (by decide)
  · exact apply_overflow_iff.2.2 (-2) 63 Int64.minValue (by decide) (by decide) rfl

/-- The remainder is zero and the power is one, yet both are refused. -/
theorem apply_overflow_withinRange :
    (Takes mod [Int64.minValue, -1] ∧ apply mod [Int64.minValue, -1] = .error (.overflow mod) ∧
        exact mod ([Int64.minValue, -1].map Int64.toInt) = some 0 ∧ Word.ofInt? 0 = some 0) ∧
      (Takes pow [1, 4294967296] ∧ apply pow [1, 4294967296] = .error (.overflow pow) ∧
        exact pow ([1, 4294967296].map Int64.toInt) = some 1 ∧ Word.ofInt? 1 = some 1) ∧
      ¬ ∀ (op : Operator) (vs : List Word), op.Takes vs → op.apply vs = .error (.overflow op) →
        op.Exceeds vs ∨ (op = add ∨ op = mul) ∧ ∃ first, first <+: vs ∧ op.Exceeds first := by
  have remainder : Takes mod [Int64.minValue, -1] := .plain (by decide) rfl
  have power : Takes pow [1, 4294967296] := .plain (by decide) rfl
  have unit : exact pow ([1, 4294967296].map Int64.toInt) = some 1 := by
    rw [← one_pow (M := Int) (Int64.toInt 4294967296).toNat]
    rfl
  refine ⟨⟨remainder, rfl, rfl, rfl⟩, ⟨power, rfl, unit, rfl⟩, ?_⟩
  intro claimed
  rcases claimed mod _ remainder rfl with exceeds | ⟨fold, _⟩
  · exact not_exceeds_mod exceeds
  · simp at fold

end Intension.Operator
