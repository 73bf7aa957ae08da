import Mathlib.Algebra.BigOperators.Group.List.Basic
import Mathlib.Algebra.Ring.Int.Parity
import Mathlib.Data.List.Chain
import Mathlib.Data.List.Nodup
import Intension.Proofs.Expr.WellFormed
import Intension.Proofs.Operator.Truth

namespace Intension

/-- The faults of operators that have no value on their operands. -/
inductive Fault.Undefined : Fault → Prop
  | divisionByZero : Undefined .divisionByZero
  | moduloByZero : Undefined .moduloByZero
  | negativeExponent (exponent : Word) : Undefined (.negativeExponent exponent)

def truth (p : Prop) [Decidable p] : Int := if p then 1 else 0

/-- The value of an operator on integers of any size, where it has one. -/
def Operator.exact : Operator → List Int → Option Int
  | neg, [a] => some (-a)
  | abs, [a] => some a.natAbs
  | add, vs => some vs.sum
  | sub, [a, b] => some (a - b)
  | mul, vs => some vs.prod
  | div, [a, b] => if b = 0 then none else some (a.tdiv b)
  | mod, [a, b] => if b = 0 then none else some (a.tmod b)
  | sqr, [a] => some (a * a)
  | pow, [a, b] => if b < 0 then none else some (a ^ b.toNat)
  | min, vs => vs.min?
  | max, vs => vs.max?
  | dist, [a, b] => some (a - b).natAbs
  | lt, vs => some (truth (vs.IsChain (· < ·)))
  | le, vs => some (truth (vs.IsChain (· ≤ ·)))
  | ge, vs => some (truth (vs.IsChain (· ≥ ·)))
  | gt, vs => some (truth (vs.IsChain (· > ·)))
  | ne, vs => some (truth vs.Nodup)
  | eq, vs => some (truth (vs.IsChain (· = ·)))
  | mem, v :: vs@(_ :: _) => some (truth (v ∈ vs.dropLast))
  | notMem, v :: vs@(_ :: _) => some (truth (v ∉ vs.dropLast))
  | not, [a] => some (truth (a = 0))
  | and, vs => some (truth (∀ v ∈ vs, v ≠ 0))
  | or, vs => some (truth (∃ v ∈ vs, v ≠ 0))
  | xor, vs => some (truth (vs.countP (· ≠ 0) % 2 = 1))
  | iff, vs => some (truth ((∀ v ∈ vs, v ≠ 0) ∨ ∀ v ∈ vs, v = 0))
  | imp, [a, b] => some (truth (a = 0 ∨ b ≠ 0))
  | ite, [a, b, c] => some (if a = 0 then c else b)
  | _, _ => none

variable {α β γ δ : Type}

/-- What is computed over words is the exact value, or a fault where there is none. An overflow says
    nothing of it. -/
inductive Realizes (read : α → β) : Except Fault α → Option β → Prop
  | value (v : α) : Realizes read (.ok v) (some (read v))
  | undefined {fault : Fault} (undefined : fault.Undefined) : Realizes read (.error fault) none
  | overflow (op : Operator) (exact : Option β) : Realizes read (.error (.overflow op)) exact

theorem Realizes.bind {read : α → β} {write : γ → δ} {x : Except Fault α} {m : Option β}
    (first : Realizes read x m) {k : α → Except Fault γ} {h : β → Option δ}
    (rest : ∀ v, x = .ok v → Realizes write (k v) (h (read v))) :
    Realizes write (x >>= k) (m.bind h) := by
  cases first with
  | value v => exact rest v rfl
  | undefined undefined => exact .undefined undefined
  | overflow op exact => exact .overflow op _

theorem Realizes.agree {x y : Except Fault Word} {m : Option Int} (first : Realizes Int64.toInt x m)
    (second : Realizes Int64.toInt y m) (fits : ∀ op, x ≠ .error (.overflow op))
    (otherFits : ∀ op, y ≠ .error (.overflow op)) :
    (∃ v, x = .ok v ∧ y = .ok v) ∨
      ∃ fault other : Fault, fault.Undefined ∧ other.Undefined ∧ x = .error fault ∧
        y = .error other := by
  cases first with
  | value v =>
    generalize same : some v.toInt = m at second
    cases second with
    | value w =>
      rw [Int64.toInt_inj.mp (Option.some.inj same)]
      exact .inl ⟨w, rfl, rfl⟩
    | undefined _ => cases same
    | overflow op _ => exact absurd rfl (otherFits op)
  | undefined undefined =>
    cases second with
    | undefined other => exact .inr ⟨_, _, undefined, other, rfl, rfl⟩
    | overflow op _ => exact absurd rfl (otherFits op)
  | overflow op _ => exact absurd rfl (fits op)

theorem truth_cases (p : Prop) [Decidable p] : truth p = 0 ∨ truth p = 1 := by
  by_cases holds : p <;> simp [truth, holds]

theorem truth_congr {p q : Prop} [Decidable p] [Decidable q] (same : p ↔ q) : truth p = truth q := by
  simp only [truth, same]

theorem truth_ne_zero {p : Prop} [Decidable p] : truth p ≠ 0 ↔ p := by
  by_cases holds : p <;> simp [truth, holds]

theorem truth_eq_zero {p : Prop} [Decidable p] : truth p = 0 ↔ ¬ p := by
  by_cases holds : p <;> simp [truth, holds]

namespace Operator

theorem exact_truth {op : Operator} (boolean : op.category = .boolean) {vs : List Int} {n : Int}
    (found : op.exact vs = some n) : n = 0 ∨ n = 1 := by
  unfold exact at found
  split at found <;> first | contradiction | (cases found; exact truth_cases _)

theorem realizes_inRange (op : Operator) (n : Int) :
    Realizes Int64.toInt (inRange op n) (some n) := by
  unfold inRange
  cases found : Word.ofInt? n with
  | none => exact .overflow op _
  | some v =>
    rw [← Word.ofInt?_eq_some_iff.mp found]
    exact .value v

theorem inRange_eq_ok {op : Operator} {n : Int} {v : Word} (found : inRange op n = .ok v) :
    v.toInt = n := by
  have exact := realizes_inRange op n
  rw [found] at exact
  cases exact
  rfl

theorem realizes_fold (op : Operator) (f : Int → Int → Int) (v : Word) (vs : List Word) :
    Realizes Int64.toInt (vs.foldlM (fun total w => inRange op (f total.toInt w.toInt)) v)
      (some ((vs.map Int64.toInt).foldl f v.toInt)) := by
  induction vs generalizing v with
  | nil => exact .value v
  | cons w vs ih =>
    rw [List.foldlM_cons, List.map_cons, List.foldl_cons]
    have first := realizes_inRange op (f v.toInt w.toInt)
    refine first.bind (h := fun total => some ((vs.map Int64.toInt).foldl f total)) ?_
    intro total found
    exact ih total

theorem toInt_ofBool (b : Bool) : (Word.ofBool b).toInt = truth b := by
  cases b <;> rfl

theorem realizes_truth {b : Bool} {p : Prop} [Decidable p] (same : b = true ↔ p) :
    Realizes Int64.toInt (.ok (Word.ofBool b)) (some (truth p)) := by
  have read : truth p = (Word.ofBool b).toInt := by
    rw [toInt_ofBool]
    simp only [truth, same]
  rw [read]
  exact .value _

theorem adjacent_iff (related : Word → Word → Bool) (vs : List Word) :
    adjacent related vs ↔ vs.IsChain (fun v w => related v w) := by
  induction vs with
  | nil => simp [adjacent]
  | cons v vs ih =>
    cases vs with
    | nil => simp [adjacent]
    | cons w rest => simp only [adjacent, Bool.and_eq_true, ih, List.isChain_cons_cons]

theorem realizes_chain {related : Word → Word → Bool} {r : Int → Int → Prop} [DecidableRel r]
    (same : ∀ v w, related v w ↔ r v.toInt w.toInt) (vs : List Word) :
    Realizes Int64.toInt (.ok (Word.ofBool (adjacent related vs)))
      (some (truth ((vs.map Int64.toInt).IsChain r))) := by
  apply realizes_truth
  rw [adjacent_iff, List.isChain_map]
  simp only [same]

/-- Past 64, the powers of a base that is no unit are no words. -/
theorem ofInt?_pow_eq_none {base : Int} (large : 1 < base.natAbs) {e : Nat} (long : 64 ≤ e) :
    Word.ofInt? (base ^ e) = none := by
  have size : 2 ^ 64 ≤ base.natAbs ^ e :=
    (Nat.pow_le_pow_left large 64).trans (Nat.pow_le_pow_right (by omega) long)
  rw [← Int.natAbs_pow] at size
  rw [Word.ofInt?_eq_none_iff]
  omega

theorem ofInt?_pow_clampExponent (base : Int) (e : Nat) :
    Word.ofInt? (base ^ clampExponent e) = Word.ofInt? (base ^ e) := by
  by_cases small : e ≤ 64
  · rw [clampExponent, if_pos small]
  · rw [clampExponent, if_neg small]
    by_cases unit : base.natAbs ≤ 1
    · -- The powers of units repeat after two.
      congr 1
      have cases : base = 0 ∨ base = 1 ∨ base = -1 := by omega
      rcases cases with rfl | rfl | rfl
      · rw [zero_pow (by omega), zero_pow (by omega)]
      · rw [one_pow, one_pow]
      · rw [neg_one_pow_eq_pow_mod_two, neg_one_pow_eq_pow_mod_two e]
        congr 1
        omega
    · rw [ofInt?_pow_eq_none (by omega) (by omega), ofInt?_pow_eq_none (by omega) (by omega)]

theorem power_of_short {base exponent : Word} (nonnegative : 0 ≤ exponent.toInt)
    (short : exponent.toInt < UInt32.size) :
    power base exponent = inRange pow (base.toInt ^ exponent.toInt.toNat) := by
  rw [power, if_neg (by omega), if_neg (by omega), inRange, inRange, ← ofInt?_pow_clampExponent]
  rfl

theorem realizes_power (base exponent : Word) :
    Realizes Int64.toInt (power base exponent)
      (if exponent.toInt < 0 then none else some (base.toInt ^ exponent.toInt.toNat)) := by
  by_cases negative : exponent.toInt < 0
  · rw [power, if_pos negative, if_pos negative]
    exact .undefined (.negativeExponent exponent)
  · rw [if_neg negative]
    by_cases short : exponent.toInt < UInt32.size
    · rw [power_of_short (by omega) short]
      exact realizes_inRange pow _
    · rw [power, if_neg negative, if_pos (by omega)]
      exact .overflow pow _

theorem toInt_min (v w : Word) : (if w < v then w else v).toInt = Min.min v.toInt w.toInt := by
  split <;> rename_i order <;> rw [Int64.lt_iff_toInt_lt] at order <;> omega

theorem toInt_max (v w : Word) : (if v < w then w else v).toInt = Max.max v.toInt w.toInt := by
  split <;> rename_i order <;> rw [Int64.lt_iff_toInt_lt] at order <;> omega

theorem realizes_select {choose : Word → Word → Word} {f : Int → Int → Int}
    (same : ∀ v w, (choose v w).toInt = f v.toInt w.toInt) (v : Word) (vs : List Word) :
    Realizes Int64.toInt (.ok (vs.foldl choose v)) (some ((vs.map Int64.toInt).foldl f v.toInt)) := by
  have read : (vs.map Int64.toInt).foldl f v.toInt = (vs.foldl choose v).toInt := by
    induction vs generalizing v with
    | nil => rfl
    | cons w vs ih => rw [List.map_cons, List.foldl_cons, List.foldl_cons, ← same, ih]
  rw [read]
  exact .value _

theorem toInt_eq_zero {v : Word} : v.toInt = 0 ↔ v = 0 := Int64.toInt_inj (y := 0)

theorem membership_realizes (expected : Prop) [Decidable expected] (v : Word) (members : List Word) :
    Realizes Int64.toInt (membership (decide expected) v members)
      (some (truth (v.toInt ∈ members.map Int64.toInt ↔ expected))) := by
  refine (realizes_inRange set members.length).bind
    (h := fun _ => some (truth (v.toInt ∈ members.map Int64.toInt ↔ expected))) ?_
  intro count _
  have injective : Function.Injective Int64.toInt := fun _ _ => Int64.toInt_inj.mp
  refine realizes_truth ?_
  rw [List.mem_map_of_injective injective]
  by_cases member : v ∈ members <;> by_cases holds : expected <;> simp [member, holds]

/-- The value of an operator on words is exact unless it overflows. -/
theorem apply_realizes {op : Operator} (plain : Expr.Plain op) {vs : List Word}
    (accepted : op.arity.accepts vs.length) :
    Realizes Int64.toInt (op.apply vs) (op.exact (vs.map Int64.toInt)) := by
  have nonempty := plain.args_ne_nil accepted
  obtain ⟨notSet, notMem, notNotMem⟩ := plain
  cases op with
  | set => contradiction
  | mem => contradiction
  | notMem => contradiction
  | neg =>
    obtain ⟨a, rfl⟩ := List.length_eq_one_iff.mp (of_decide_eq_true accepted)
    exact realizes_inRange neg _
  | abs =>
    obtain ⟨a, rfl⟩ := List.length_eq_one_iff.mp (of_decide_eq_true accepted)
    exact realizes_inRange abs _
  | sqr =>
    obtain ⟨a, rfl⟩ := List.length_eq_one_iff.mp (of_decide_eq_true accepted)
    exact realizes_inRange sqr _
  | not =>
    obtain ⟨a, rfl⟩ := List.length_eq_one_iff.mp (of_decide_eq_true accepted)
    exact realizes_truth (by simp [toInt_eq_zero])
  | add =>
    obtain ⟨v, ws, rfl⟩ := List.exists_cons_of_ne_nil nonempty
    have total := realizes_fold add (· + ·) v ws
    have sum : (List.map Int64.toInt (v :: ws)).sum = (ws.map Int64.toInt).foldl (· + ·) v.toInt := by
      rw [List.sum_eq_foldl, List.map_cons, List.foldl_cons, zero_add]
    rw [← sum] at total
    exact total
  | mul =>
    obtain ⟨v, ws, rfl⟩ := List.exists_cons_of_ne_nil nonempty
    have total := realizes_fold mul (· * ·) v ws
    have product : (List.map Int64.toInt (v :: ws)).prod = (ws.map Int64.toInt).foldl (· * ·) v.toInt := by
      rw [List.prod_eq_foldl, List.map_cons, List.foldl_cons, one_mul]
    rw [← product] at total
    exact total
  | min =>
    obtain ⟨v, ws, rfl⟩ := List.exists_cons_of_ne_nil nonempty
    exact realizes_select toInt_min v ws
  | max =>
    obtain ⟨v, ws, rfl⟩ := List.exists_cons_of_ne_nil nonempty
    exact realizes_select toInt_max v ws
  | sub =>
    obtain ⟨a, b, rfl⟩ := List.length_eq_two.mp (of_decide_eq_true accepted)
    exact realizes_inRange sub _
  | div =>
    obtain ⟨a, b, rfl⟩ := List.length_eq_two.mp (of_decide_eq_true accepted)
    simp only [apply, exact, List.map_cons, List.map_nil, toInt_eq_zero]
    split
    · exact .undefined .divisionByZero
    · exact realizes_inRange div _
  | mod =>
    obtain ⟨a, b, rfl⟩ := List.length_eq_two.mp (of_decide_eq_true accepted)
    simp only [apply, exact, List.map_cons, List.map_nil, toInt_eq_zero]
    split
    · exact .undefined .moduloByZero
    · exact (realizes_inRange mod _).bind (h := fun _ => some (a.toInt.tmod b.toInt))
        (fun _ _ => realizes_inRange mod _)
  | pow =>
    obtain ⟨a, b, rfl⟩ := List.length_eq_two.mp (of_decide_eq_true accepted)
    exact realizes_power a b
  | dist =>
    obtain ⟨a, b, rfl⟩ := List.length_eq_two.mp (of_decide_eq_true accepted)
    refine (realizes_inRange dist _).bind (h := fun difference => some (difference.natAbs : Int)) ?_
    intro difference _
    exact realizes_inRange dist _
  | imp =>
    obtain ⟨a, b, rfl⟩ := List.length_eq_two.mp (of_decide_eq_true accepted)
    exact realizes_truth (by simp [toInt_eq_zero])
  | ite =>
    obtain ⟨a, b, c, rfl⟩ := List.length_eq_three.mp (of_decide_eq_true accepted)
    simp only [apply, exact, List.map_cons, List.map_nil, toInt_eq_zero]
    rw [← apply_ite Int64.toInt]
    exact .value _
  | lt => exact realizes_chain (by simp [Int64.lt_iff_toInt_lt]) vs
  | le => exact realizes_chain (by simp [Int64.le_iff_toInt_le]) vs
  | ge => exact realizes_chain (by simp [Int64.le_iff_toInt_le]) vs
  | gt => exact realizes_chain (by simp [Int64.lt_iff_toInt_lt]) vs
  | eq => exact realizes_chain (by simp [Int64.toInt_inj]) vs
  | ne =>
    have injective : Function.Injective Int64.toInt := fun _ _ => Int64.toInt_inj.mp
    exact realizes_truth (by rw [decide_eq_true_iff, List.nodup_map_iff injective])
  | and => exact realizes_truth (by simp [toInt_eq_zero])
  | or => exact realizes_truth (by simp [toInt_eq_zero])
  | xor =>
    refine realizes_truth ?_
    have counted : (vs.map Int64.toInt).countP (· ≠ 0) = vs.countP (· ≠ 0) := by
      rw [List.countP_map]
      exact List.countP_congr (by simp [toInt_eq_zero])
    rw [decide_eq_true_iff, counted]
  | iff =>
    obtain ⟨v, ws, rfl⟩ := List.exists_cons_of_ne_nil nonempty
    refine realizes_truth ?_
    by_cases zero : v = 0 <;> simp [zero, toInt_eq_zero]

end Operator

end Intension
