namespace Intension

/-- A value is a 64-bit word, read as a signed integer. -/
abbrev Word := Int64

/-- The word of an integer, for an integer in the signed range. -/
def Word.ofInt? (n : Int) : Option Word :=
  if Int64.minValue.toInt ≤ n ∧ n ≤ Int64.maxValue.toInt then some (Int64.ofInt n) else none

theorem Word.ofInt?_toInt (v : Word) : Word.ofInt? v.toInt = some v := by
  rw [Word.ofInt?, if_pos ⟨Int64.minValue_le_toInt v, Int64.toInt_le v⟩, Int64.ofInt_toInt]

theorem Word.ofInt?_eq_some_iff {n : Int} {v : Word} :
    Word.ofInt? n = some v ↔ v.toInt = n := by
  constructor
  · intro found
    unfold Word.ofInt? at found
    split at found
    · rename_i bounds
      rw [Int64.toInt_minValue, Int64.toInt_maxValue] at bounds
      cases found
      exact Int64.toInt_ofInt_of_le (by omega) (by omega)
    · contradiction
  · rintro rfl
    exact Word.ofInt?_toInt v

theorem Word.ofInt?_eq_none_iff {n : Int} :
    Word.ofInt? n = none ↔ n < -9223372036854775808 ∨ 9223372036854775807 < n := by
  unfold Word.ofInt?
  rw [Int64.toInt_minValue, Int64.toInt_maxValue]
  split <;> simp only [reduceCtorEq, false_iff, true_iff] <;> omega

def Word.ofBool (b : Bool) : Word := if b then 1 else 0

end Intension
