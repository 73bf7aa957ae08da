import Mathlib.Data.List.Forall2
import Mathlib.Data.List.Lex
import Intension.Proofs.Extension.Cursor

namespace Intension.Cursor

/-- The cursor after a number of steps. -/
def after : Nat → Cursor → Cursor
  | 0, c => c
  | k + 1, c => after k c.next.2

/-- The tuple of a step with its places, the first step being step 0. A cursor without a tuple to come
    gives none. -/
def stop? (c : Cursor) (k : Nat) : Option (List Nat × List Word) :=
  match (c.after k).next with
  | (some tuple, c) => some (c.places, tuple)
  | (none, _) => none

/-- A place for each domain, within that domain. -/
def Within : List (List Word) → List Nat → Prop :=
  List.Forall₂ fun domain place => place < domain.length

/-- The number of a tuple in the product, with its places as the digits and the sizes of the domains as
    the bases. -/
def rank : List (List Word) → List Nat → Nat
  | _ :: domains, place :: places => place * tupleCount domains + rank domains places
  | _, _ => 0

variable {domains : List (List Word)} {places others : List Nat} {tuple next : List Word} {c : Cursor}

theorem Reads.within (reads : Reads domains places tuple) : Within domains places := by
  induction reads with
  | nil => exact .nil
  | cons value _ ih => exact .cons (List.getElem?_eq_some_iff.mp value).1 ih

theorem tupleCount_cons (domain : List Word) (domains : List (List Word)) :
    tupleCount (domain :: domains) = domain.length * tupleCount domains := rfl

theorem rank_lt (within : Within domains places) : rank domains places < tupleCount domains := by
  induction within with
  | nil => exact Nat.zero_lt_one
  | @cons domain place domains places bound _ ih =>
    have block := Nat.mul_le_mul_right (tupleCount domains) (Nat.succ_le_of_lt bound)
    rw [Nat.succ_mul] at block
    rw [rank, tupleCount_cons]
    omega

/-- A larger digit outweighs all digits behind it. -/
theorem rank_lt_of_lt {domain : List Word} {i j : Nat} (first : Within domains places) (order : i < j) :
    rank (domain :: domains) (i :: places) < rank (domain :: domains) (j :: others) := by
  have block := Nat.mul_le_mul_right (tupleCount domains) (Nat.succ_le_of_lt order)
  have bound := rank_lt first
  rw [Nat.succ_mul] at block
  rw [rank, rank]
  omega

theorem rank_lt_iff_lex (first : Within domains places) (second : Within domains others) :
    rank domains places < rank domains others ↔ List.Lex (· < ·) places others := by
  induction first generalizing others with
  | nil =>
    cases second
    simp [rank]
  | @cons domain i domains places _ rest ih =>
    cases second with
    | @cons _ j _ others _ later =>
      -- The first place decides, unless it is the same on both sides.
      rcases Nat.lt_trichotomy i j with less | rfl | greater
      · exact iff_of_true (rank_lt_of_lt rest less) (.rel less)
      · rw [rank, rank, Nat.add_lt_add_iff_left, ih later, List.lex_cons_iff]
      · have turned : rank (domain :: domains) (j :: others) < rank (domain :: domains) (i :: places) :=
          rank_lt_of_lt later greater
        refine iff_of_false (Nat.lt_asymm turned) ?_
        intro lex
        cases lex <;> omega

theorem rank_inj (first : Within domains places) (second : Within domains others)
    (same : rank domains places = rank domains others) : places = others := by
  rcases trichotomous_of (List.Lex (· < ·)) places others with less | equal | greater
  · have order := (rank_lt_iff_lex first second).mpr less
    omega
  · exact equal
  · have order := (rank_lt_iff_lex second first).mpr greater
    omega

/-- A tuple stands behind as many tuples of the product as its rank says. -/
theorem rank_add_behind (reads : Reads domains places tuple) :
    rank domains places + 1 + (behind domains places tuple).length = tupleCount domains := by
  induction reads with
  | nil => rfl
  | @cons domain place v domains places tuple value _ ih =>
    obtain ⟨bound, _⟩ := List.getElem?_eq_some_iff.mp value
    have later : place + 1 + (domain.length - (place + 1)) = domain.length := by omega
    rw [rank, behind, tupleCount_cons, List.length_append, List.length_map, ← later, Nat.add_mul, Nat.add_mul]
    simp only [List.length_flatMap, List.length_map, length_product, List.map_const', List.sum_replicate_nat,
      List.length_drop]
    omega

/-- Ascending domains keep the order of the places. -/
theorem Reads.lex (ascending : ∀ domain ∈ domains, domain.Pairwise (· < ·))
    (first : Reads domains places tuple) (second : Reads domains others next)
    (order : List.Lex (· < ·) places others) : List.Lex (· < ·) tuple next := by
  induction first generalizing others next with
  | nil =>
    cases second
    cases order
  | @cons domain _ _ domains _ _ value _ ih =>
    have rest := fun d member => ascending d (List.mem_cons_of_mem domain member)
    cases second with
    | cons other later =>
      cases order with
      | cons order =>
        rw [Option.some.inj (value.symm.trans other)]
        exact .cons (ih rest later order)
      | rel less =>
        obtain ⟨here, rfl⟩ := List.getElem?_eq_some_iff.mp value
        obtain ⟨there, rfl⟩ := List.getElem?_eq_some_iff.mp other
        have values := List.pairwise_iff_getElem.mp (ascending domain List.mem_cons_self)
        exact .rel (values _ _ here there less)

theorem sound_of_finished (finished : c.finished = true) : c.Sound := by
  cases c
  cases finished
  exact .behind

/-- One step of a cursor takes the first pending tuple, if there is one. -/
theorem next_eq (sound : c.Sound) :
    c.next.1 = c.pending.head? ∧ c.next.2.Sound ∧ c.next.2.pending = c.pending.tail := by
  rcases next_cases sound with ⟨none, later, step, finished⟩ | ⟨tuple, later, step, sound, some⟩
  · rw [step, none, pending, if_pos finished]
    exact ⟨rfl, sound_of_finished finished, rfl⟩
  · rw [step, some]
    exact ⟨rfl, sound, rfl⟩

theorem next_eq_some {later : Cursor} (step : c.next = (some tuple, later)) :
    ∃ places, later = ⟨c.domains, places, tuple, true, false⟩ := by
  obtain ⟨domains, places, current, started, finished⟩ := c
  unfold Cursor.next at step
  split at step
  · cases step
  · rename_i unfinished
    rw [Bool.not_eq_true] at unfinished
    subst unfinished
    split at step
    · rename_i begun
      subst begun
      split at step <;> cases step
      exact ⟨_, rfl⟩
    · cases step
      exact ⟨_, rfl⟩

theorem reads_of_next {later : Cursor} (sound : c.Sound) (step : c.next = (some tuple, later)) :
    Reads c.domains later.places tuple ∧ c.pending.tail = behind c.domains later.places tuple := by
  obtain ⟨places, rfl⟩ := next_eq_some step
  obtain ⟨_, reached, rest⟩ := next_eq sound
  rw [step] at reached rest
  cases reached with
  | within reads => exact ⟨reads, rest.symm⟩

theorem after_succ (k : Nat) (c : Cursor) : c.after (k + 1) = (c.after k).next.2 := by
  induction k generalizing c with
  | zero => rfl
  | succ k ih => exact ih c.next.2

theorem domains_next (c : Cursor) : c.next.2.domains = c.domains := by
  unfold Cursor.next
  split
  · rfl
  · split
    · split <;> rfl
    · rfl

/-- The run of a cursor takes the pending tuples one by one. -/
theorem after_eq (sound : c.Sound) (k : Nat) :
    (c.after k).Sound ∧ (c.after k).pending = c.pending.drop k ∧ (c.after k).domains = c.domains := by
  induction k with
  | zero => exact ⟨sound, rfl, rfl⟩
  | succ k ih =>
    obtain ⟨sound, pending, domains⟩ := ih
    obtain ⟨_, later, rest⟩ := next_eq sound
    rw [after_succ, rest, pending, List.tail_drop, domains_next]
    exact ⟨later, rfl, domains⟩

theorem stop?_snd (sound : c.Sound) (k : Nat) : (c.stop? k).map Prod.snd = c.pending[k]? := by
  obtain ⟨sound, pending, _⟩ := after_eq sound k
  have given := (next_eq sound).1
  rw [pending, List.head?_drop] at given
  rw [← given, stop?]
  split <;> rename_i step <;> rw [step] <;> rfl

theorem reads_of_stop? (sound : c.Sound) {k : Nat} (found : c.stop? k = some (places, tuple)) :
    Reads c.domains places tuple ∧ c.pending.drop (k + 1) = behind c.domains places tuple := by
  obtain ⟨sound, pending, domains⟩ := after_eq sound k
  rw [stop?] at found
  split at found
  · rename_i step
    cases found
    have reached := reads_of_next sound step
    rwa [pending, List.tail_drop, domains] at reached
  · cases found

theorem stop?_start_snd (domains : List (List Word)) (k : Nat) :
    ((start domains).stop? k).map Prod.snd = (product domains)[k]? := by
  rw [stop?_snd (sound_start domains), pending_start]

theorem stop?_start_eq_none_iff {k : Nat} : (start domains).stop? k = none ↔ tupleCount domains ≤ k := by
  rw [← Option.map_eq_none_iff, stop?_start_snd, List.getElem?_eq_none_iff, length_product]

theorem rank_of_stop? {k : Nat} (found : (start domains).stop? k = some (places, tuple)) :
    Reads domains places tuple ∧ rank domains places = k := by
  have reads : Reads domains places tuple := (reads_of_stop? (sound_start domains) found).1
  have rest := (reads_of_stop? (sound_start domains) found).2
  have total := rank_add_behind reads
  have size : (product domains).length - (k + 1) = (behind domains places tuple).length := by
    rw [← List.length_drop, ← pending_start, rest]
    rfl
  have bound : ¬ tupleCount domains ≤ k := by
    rw [← stop?_start_eq_none_iff, found]
    exact Option.some_ne_none _
  rw [length_product] at size
  exact ⟨reads, by omega⟩

/-- The step at which a tuple comes is its rank. -/
theorem stop?_rank (within : Within domains places) :
    ∃ tuple, (start domains).stop? (rank domains places) = some (places, tuple) := by
  cases found : (start domains).stop? (rank domains places) with
  | none =>
    have bound := rank_lt within
    rw [stop?_start_eq_none_iff] at found
    omega
  | some stop =>
    obtain ⟨reads, same⟩ := rank_of_stop? found
    exact ⟨stop.2, by rw [← rank_inj reads.within within same]⟩

/-- A cursor goes through the product once and in order, and then gives nothing more. It stops at all places
    within the domains, each once and in lexicographic order, on the values that are there. With ascending
    domains the tuples are in lexicographic order as well. -/
theorem start_enumerates (domains : List (List Word)) :
    (∀ k, ((start domains).stop? k).map Prod.snd = (product domains)[k]?) ∧
    (∀ k, (start domains).stop? k = none ↔ tupleCount domains ≤ k) ∧
    (∀ places, Within domains places → ∃! k, ∃ tuple, (start domains).stop? k = some (places, tuple)) ∧
    (∀ k places tuple, (start domains).stop? k = some (places, tuple) → Reads domains places tuple) ∧
    (∀ j k places others tuple next, j < k → (start domains).stop? j = some (places, tuple) →
      (start domains).stop? k = some (others, next) →
        List.Lex (· < ·) places others ∧
        ((∀ domain ∈ domains, domain.Pairwise (· < ·)) → List.Lex (· < ·) tuple next)) ∧
    (domains = [] → ∀ k, (start domains).stop? k = if k = 0 then some ([], []) else none) ∧
    ([] ∈ domains → ∀ k, (start domains).stop? k = none) := by
  refine ⟨stop?_start_snd domains, fun k => stop?_start_eq_none_iff, ?_,
    fun k places tuple found => (rank_of_stop? found).1, ?_, ?_, ?_⟩
  · intro places within
    refine ⟨rank domains places, stop?_rank within, ?_⟩
    intro k found
    obtain ⟨tuple, found⟩ := found
    exact (rank_of_stop? found).2.symm
  · intro j k places others tuple next order first second
    obtain ⟨reads, rfl⟩ := rank_of_stop? first
    obtain ⟨later, rfl⟩ := rank_of_stop? second
    have lex := (rank_lt_iff_lex reads.within later.within).mp order
    exact ⟨lex, fun ascending => reads.lex ascending later lex⟩
  · intro none k
    subst none
    cases k with
    | zero => rfl
    | succ k => exact stop?_start_eq_none_iff.mpr (Nat.le_add_left 1 k)
  · intro empty k
    have none : product domains = [] := product_eq_nil (List.any_eq_true.mpr ⟨[], empty, rfl⟩)
    rw [stop?_start_eq_none_iff, ← length_product, none]
    exact Nat.zero_le k

theorem start_enumerates_pairs :
    (Within [[3, 3], [9, 7]] [1, 0] ∧
        ∃! k, ∃ tuple, (start [[3, 3], [9, 7]]).stop? k = some ([1, 0], tuple)) ∧
      ((start [[3, 3], [9, 7]]).stop? 2 = some ([1, 0], [3, 9]) ∧ Reads [[3, 3], [9, 7]] [1, 0] [3, 9]) ∧
      ((start [[1, 2], [7, 8, 9]]).stop? 2 = some ([0, 2], [1, 9]) ∧
        (start [[1, 2], [7, 8, 9]]).stop? 3 = some ([1, 0], [2, 7]) ∧
        List.Lex (· < ·) [0, 2] [1, 0] ∧ List.Lex (· < ·) [(1 : Word), 9] [2, 7]) ∧
      (start []).stop? 1 = none ∧ ∀ k, (start [[1, 2], []]).stop? k = none := by
  have within : Within [[3, 3], [9, 7]] [1, 0] := .cons (by decide) (.cons (by decide) .nil)
  have third : (start [[3, 3], [9, 7]]).stop? 2 = some ([1, 0], [3, 9]) := rfl
  have carry := (start_enumerates [[1, 2], [7, 8, 9]]).2.2.2.2.1 2 3 _ _ _ _ (by decide) rfl rfl
  refine ⟨⟨within, (start_enumerates _).2.2.1 _ within⟩, ⟨third, (start_enumerates _).2.2.2.1 2 _ _ third⟩,
    ⟨rfl, rfl, carry.1, carry.2 (by decide)⟩, ?_, ?_⟩
  · exact (start_enumerates []).2.2.2.2.2.1 rfl 1
  · exact (start_enumerates _).2.2.2.2.2.2 (by decide)

end Intension.Cursor
