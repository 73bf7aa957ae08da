import Mathlib.Data.List.Induction
import Intension.Extension.Side
import Intension.Program.Assembly
import Intension.Proofs.Extension.Table

namespace Intension

/-- The tuples of the rows on one side: those with a value other than zero, or those with zero. -/
def rowsOn (supports : Bool) (rows : List (Tuple × Word)) : List Tuple :=
  (rows.filter fun row => decide (row.2 ≠ 0) == supports).map Prod.fst

theorem rowsOn_cons (supports : Bool) (row : Tuple × Word) (rows : List (Tuple × Word)) :
    rowsOn supports (row :: rows) =
      if decide (row.2 ≠ 0) == supports then row.1 :: rowsOn supports rows
      else rowsOn supports rows := by
  rw [rowsOn, List.filter_cons]
  split <;> rfl

theorem rowsOn_append (supports : Bool) (rows others : List (Tuple × Word)) :
    rowsOn supports (rows ++ others) = rowsOn supports rows ++ rowsOn supports others := by
  rw [rowsOn, List.filter_append, List.map_append, rowsOn, rowsOn]

/-- Whether there are no more supports than conflicts. -/
def favoursSupports (rows : List (Tuple × Word)) : Bool :=
  decide ((rowsOn true rows).length ≤ (rowsOn false rows).length)

namespace Sample

def stored (s : Sample) (supports : Bool) : List Tuple :=
  if supports then s.supports.toList else s.conflicts.toList

/-- A sample for which a side is chosen has the tuples on that side. -/
structure Keeps (supports : Bool) (rows : List (Tuple × Word)) (s : Sample) : Prop where
  chosen : s.chosen? = some supports
  stored : s.stored supports = rowsOn supports rows

/-- A sample without a choice has the tuples on both sides. -/
structure Weighs (rows : List (Tuple × Word)) (s : Sample) : Prop where
  chosen : s.chosen? = none
  stored : ∀ supports, s.stored supports = rowsOn supports rows

theorem chosen_store (s : Sample) (tuple : Tuple) (v : Word) :
    (s.store tuple v).chosen? = s.chosen? := by
  unfold store
  split <;> split <;> rfl

theorem seen_store (s : Sample) (tuple : Tuple) (v : Word) : (s.store tuple v).seen = s.seen := by
  unfold store
  split <;> split <;> rfl

theorem stored_store {s : Sample} {supports : Bool} (kept : s.chosen? ≠ some (!supports))
    (tuple : Tuple) (v : Word) :
    (s.store tuple v).stored supports = s.stored supports ++ rowsOn supports [(tuple, v)] := by
  unfold store
  by_cases zero : v = 0
  · rw [if_neg (not_not.mpr zero)]
    split
    · rename_i chosen
      cases supports
      · exact absurd chosen kept
      · simp [rowsOn, zero]
    · cases supports <;> simp [stored, rowsOn, zero]
  · rw [if_pos zero]
    split
    · rename_i chosen
      cases supports
      · simp [rowsOn, zero]
      · exact absurd chosen kept
    · cases supports <;> simp [stored, rowsOn, zero]

theorem Keeps.store {supports : Bool} {rows : List (Tuple × Word)} {s : Sample}
    (keeps : Keeps supports rows s) (row : Tuple × Word) :
    Keeps supports (rows ++ [row]) (s.store row.1 row.2) := by
  refine ⟨(s.chosen_store row.1 row.2).trans keeps.chosen, ?_⟩
  rw [stored_store (by simp [keeps.chosen]), keeps.stored, rowsOn_append]

theorem Weighs.store {rows : List (Tuple × Word)} {s : Sample} (weighs : Weighs rows s)
    (row : Tuple × Word) : Weighs (rows ++ [row]) (s.store row.1 row.2) := by
  refine ⟨(s.chosen_store row.1 row.2).trans weighs.chosen, ?_⟩
  intro supports
  rw [stored_store (by simp [weighs.chosen]), weighs.stored, rowsOn_append]

theorem Keeps.choose {supports : Bool} {rows : List (Tuple × Word)} {s : Sample}
    (keeps : Keeps supports rows s) (limit : Nat) : s.choose limit = s := by
  rw [Sample.choose, keeps.chosen, Option.isSome_some, if_pos rfl]

theorem Weighs.prefersSupports {rows : List (Tuple × Word)} {s : Sample} (weighs : Weighs rows s) :
    s.prefersSupports = favoursSupports rows := by
  have supports : s.supports.toList = rowsOn true rows := weighs.stored true
  have conflicts : s.conflicts.toList = rowsOn false rows := weighs.stored false
  rw [Sample.prefersSupports, favoursSupports, ← supports, ← conflicts, Array.length_toList,
    Array.length_toList]

theorem Weighs.choose_within {rows : List (Tuple × Word)} {s : Sample} (weighs : Weighs rows s)
    {limit : Nat} (room : s.seen + 1 ≤ limit) :
    Weighs rows (s.choose limit) ∧ (s.choose limit).seen = s.seen + 1 := by
  have counted : s.choose limit = { s with seen := s.seen + 1 } := by
    rw [Sample.choose, weighs.chosen, Option.isSome_none, if_neg Bool.false_ne_true, if_pos room]
  rw [counted]
  exact ⟨⟨weighs.chosen, weighs.stored⟩, rfl⟩

theorem Weighs.choose_beyond {rows : List (Tuple × Word)} {s : Sample} (weighs : Weighs rows s)
    {limit : Nat} (full : ¬ s.seen + 1 ≤ limit) :
    Keeps (favoursSupports rows) rows (s.choose limit) := by
  rw [Sample.choose, weighs.chosen, Option.isSome_none, if_neg Bool.false_ne_true, if_neg full,
    weighs.prefersSupports]
  cases favoursSupports rows with
  | true => exact ⟨rfl, weighs.stored true⟩
  | false => exact ⟨rfl, weighs.stored false⟩

/-- Up to the limit a sample has no choice. Past it, the choice is the one that the rows up to the
    limit and one more led to. -/
def Samples (limit : Nat) (rows : List (Tuple × Word)) (s : Sample) : Prop :=
  if rows.length ≤ limit then Weighs rows s ∧ s.seen = rows.length
  else Keeps (favoursSupports (rows.take (limit + 1))) rows s

theorem Samples.add {limit : Nat} {rows : List (Tuple × Word)} {s : Sample}
    (samples : Samples limit rows s) (row : Tuple × Word) :
    Samples limit (rows ++ [row]) (s.add limit row.1 row.2) := by
  have length : (rows ++ [row]).length = rows.length + 1 := by simp
  unfold Samples at samples ⊢
  split at samples
  · obtain ⟨weighs, seen⟩ := samples
    have stored := weighs.store row
    have count := (s.seen_store row.1 row.2).trans seen
    split
    · have room : (s.store row.1 row.2).seen + 1 ≤ limit := by omega
      have chosen := stored.choose_within room
      exact ⟨chosen.1, by rw [Sample.add, chosen.2, count, length]⟩
    · -- This row is the one past the limit, so the choice is made on all rows so far.
      rw [List.take_of_length_le (by omega)]
      exact stored.choose_beyond (by omega)
  · -- The choice was made on a prefix that one more row does not change.
    have keeps := samples.store row
    rw [if_neg (by omega), List.take_append_of_le_length (by omega), Sample.add,
      keeps.choose]
    exact keeps

/-- A property of a sample and the rows it was given that one more row keeps holds at the end. -/
theorem foldl_add (limit : Nat) {Holds : List (Tuple × Word) → Sample → Prop} {s : Sample}
    (first : Holds [] s)
    (step : ∀ rows s row, Holds rows s → Holds (rows ++ [row]) (s.add limit row.1 row.2))
    (rows : List (Tuple × Word)) :
    Holds rows (rows.foldl (fun s row => s.add limit row.1 row.2) s) := by
  induction rows using List.reverseRecOn with
  | nil => exact first
  | append_singleton rows row ih =>
    rw [List.foldl_append]
    exact step rows _ row ih

theorem Keeps.side {supports : Bool} {rows : List (Tuple × Word)} {s : Sample}
    (keeps : Keeps supports rows s) : s.side = ⟨supports, rowsOn supports rows⟩ := by
  have stored := keeps.stored
  rw [Sample.side, keeps.chosen, Option.getD_some, ← stored]
  rfl

theorem Samples.side {limit : Nat} {rows : List (Tuple × Word)} {s : Sample}
    (samples : Samples limit rows s) :
    s.side = ⟨favoursSupports (rows.take (limit + 1)),
      rowsOn (favoursSupports (rows.take (limit + 1))) rows⟩ := by
  unfold Samples at samples
  split at samples
  · obtain ⟨weighs, _⟩ := samples
    rw [List.take_of_length_le (by omega), Sample.side, weighs.chosen, Option.getD_none,
      weighs.prefersSupports, ← weighs.stored]
    rfl
  · exact samples.side

end Sample

namespace Program

variable {p : Program} {domains : List (List Word)}

theorem side_chosen (count : domains.length = p.arity) (supports : Bool) (limit : Nat) :
    p.side domains (some supports) limit =
      (p.table (product domains)).map (fun rows => ⟨supports, rowsOn supports rows⟩) := by
  rw [side, visitProduct_eq_foldl p count]
  cases p.table (product domains) with
  | error e => rfl
  | ok rows =>
    have keeps : Sample.Keeps supports rows _ :=
      Sample.foldl_add limit (s := .start (some supports)) ⟨rfl, by cases supports <;> rfl⟩
        (fun rows s row keeps => by
          have stored := keeps.store row
          rw [Sample.add, stored.choose]
          exact stored) rows
    exact congrArg Except.ok keeps.side

theorem side_sampled (count : domains.length = p.arity) (limit : Nat) :
    p.side domains none limit = (p.table (product domains)).map (fun rows =>
      ⟨favoursSupports (rows.take (limit + 1)),
        rowsOn (favoursSupports (rows.take (limit + 1))) rows⟩) := by
  rw [side, visitProduct_eq_foldl p count]
  cases p.table (product domains) with
  | error e => rfl
  | ok rows =>
    have samples : Sample.Samples limit rows _ :=
      Sample.foldl_add limit (s := .start none)
        ⟨⟨rfl, fun supports => by cases supports <;> rfl⟩, rfl⟩
        (fun rows s row samples => samples.add row) rows
    exact congrArg Except.ok samples.side

theorem tuplesOn_eq (count : domains.length = p.arity) (supports : Bool) :
    p.tuplesOn domains supports = (p.table (product domains)).map (rowsOn supports) := by
  rw [tuplesOn, side_chosen count]
  cases p.table (product domains) <;> rfl

theorem foldl_count (rows : List (Tuple × Word)) (count : Nat) :
    rows.foldl (fun count row => if row.2 ≠ 0 then count + 1 else count) count =
      count + (rowsOn true rows).length := by
  induction rows generalizing count with
  | nil => rfl
  | cons row rows ih =>
    rw [List.foldl_cons, ih, rowsOn_cons]
    by_cases zero : row.2 = 0
    · simp [zero]
    · simp [zero, Nat.add_assoc, Nat.add_comm 1]

theorem supportCount_eq (count : domains.length = p.arity) :
    p.supportCount domains =
      (p.table (product domains)).map (fun rows => (rowsOn true rows).length) := by
  rw [supportCount, visitProduct_eq_foldl p count (fun count _ v => if v ≠ 0 then count + 1 else count)]
  cases p.table (product domains) with
  | error e => rfl
  | ok rows =>
    have counted := foldl_count rows 0
    rw [Nat.zero_add] at counted
    exact congrArg Except.ok counted

/-- Whether a tuple has a value and the value is on the given side. -/
def onSide (p : Program) (supports : Bool) (tuple : Tuple) : Bool :=
  match p.evaluate tuple with
  | .ok v => decide (v ≠ 0) == supports
  | .error _ => false

theorem Lists.rowsOn {tuples : List Tuple} {rows : List (Tuple × Word)} (lists : p.Lists tuples rows)
    (supports : Bool) : rowsOn supports rows = tuples.filter (p.onSide supports) := by
  induction lists with
  | nil => rfl
  | @cons tuple row tuples rows listed _ ih =>
    obtain ⟨rfl, value⟩ := listed
    have same : p.onSide supports row.1 = (decide (row.2 ≠ 0) == supports) := by rw [onSide, value]
    rw [rowsOn_cons, ih, List.filter_cons, same]

theorem tuplesOn_of_faultless (count : domains.length = p.arity)
    (faultless : p.firstFault? (product domains) = none) (supports : Bool) :
    p.tuplesOn domains supports = .ok ((product domains).filter (p.onSide supports)) := by
  obtain ⟨rows, listed, lists⟩ := exists_table faultless
  rw [tuplesOn_eq count, listed, ← lists.rowsOn]
  rfl

theorem tuplesOn_of_fault (count : domains.length = p.arity) {fault : Fault}
    (found : p.firstFault? (product domains) = some fault) (supports : Bool) :
    p.tuplesOn domains supports = .error (.evaluation fault) := by
  rw [tuplesOn_eq count, table_of_fault found]
  rfl

/-- Supports and conflicts part a product, in its order. A fault of any tuple is the fault of every
    enumeration, and it is the first one. -/
theorem supports_conflicts_partition (count : domains.length = p.arity) :
    (p.firstFault? (product domains) = none →
      p.supports domains = .ok ((product domains).filter (p.onSide true)) ∧
        p.conflicts domains = .ok ((product domains).filter (p.onSide false)) ∧
        p.supportCount domains = .ok ((product domains).filter (p.onSide true)).length) ∧
    ∀ fault, p.firstFault? (product domains) = some fault →
      p.supports domains = .error (.evaluation fault) ∧
        p.conflicts domains = .error (.evaluation fault) ∧
        p.supportCount domains = .error (.evaluation fault) := by
  constructor
  · intro faultless
    refine ⟨tuplesOn_of_faultless count faultless true, tuplesOn_of_faultless count faultless false, ?_⟩
    obtain ⟨rows, listed, lists⟩ := exists_table faultless
    rw [supportCount_eq count, listed, ← lists.rowsOn]
    rfl
  · intro fault found
    refine ⟨tuplesOn_of_fault count found true, tuplesOn_of_fault count found false, ?_⟩
    rw [supportCount_eq count, table_of_fault found]
    rfl

/-- Whether the quotient of seven by the first value is below the second value. -/
def quotientBelow : Program :=
  ⟨[⟨.push 7, none⟩, ⟨.load 0, none⟩, ⟨.apply .div 2, none⟩, ⟨.load 1, none⟩, ⟨.apply .lt 2, none⟩], 2,
    .boolean, []⟩

theorem supports_conflicts_partition_quotientBelow :
    ofTokens [.int 7, .slot 0, .op .div 2, .slot 1, .op .lt 2] true = .ok quotientBelow ∧
      (quotientBelow.firstFault? (product [[2, -3], [3, 0, 3]]) = none ∧
        quotientBelow.supports [[2, -3], [3, 0, 3]] = .ok [[-3, 3], [-3, 0], [-3, 3]] ∧
        quotientBelow.conflicts [[2, -3], [3, 0, 3]] = .ok [[2, 3], [2, 0], [2, 3]] ∧
        quotientBelow.supportCount [[2, -3], [3, 0, 3]] = .ok 3) ∧
      quotientBelow.firstFault? (product [[2, 0], [3]]) = some .divisionByZero ∧
        quotientBelow.supports [[2, 0], [3]] = .error (.evaluation .divisionByZero) :=
  ⟨rfl, ⟨rfl, (supports_conflicts_partition rfl).1 rfl⟩, rfl,
    ((supports_conflicts_partition rfl).2 .divisionByZero rfl).1⟩

theorem Lists.take {tuples : List Tuple} {rows : List (Tuple × Word)} (lists : p.Lists tuples rows)
    (n : Nat) : p.Lists (tuples.take n) (rows.take n) := List.forall₂_take n lists

theorem Lists.favoursSupports {tuples : List Tuple} {rows : List (Tuple × Word)}
    (lists : p.Lists tuples rows) : favoursSupports rows = true ↔
      tuples.countP (p.onSide true) ≤ tuples.countP (p.onSide false) := by
  rw [Intension.favoursSupports, lists.rowsOn, lists.rowsOn, decide_eq_true_iff,
    List.countP_eq_length_filter, List.countP_eq_length_filter]

/-- Without a given side, the first tuples of a product decide on one, as many as the limit and one
    more. All tuples of the product on that side are kept. -/
theorem sampled_side_complete (count : domains.length = p.arity) (limit : Nat)
    (faultless : p.firstFault? (product domains) = none) :
    ∃ s, p.side domains none limit = .ok s ∧
      (s.supports = true ↔
        ((product domains).take (limit + 1)).countP (p.onSide true) ≤
          ((product domains).take (limit + 1)).countP (p.onSide false)) ∧
      s.tuples = (product domains).filter (p.onSide s.supports) ∧
      (if s.supports then p.supports domains else p.conflicts domains) = .ok s.tuples := by
  obtain ⟨rows, listed, lists⟩ := exists_table faultless
  have decides := (lists.take (limit + 1)).favoursSupports
  have sampled := side_sampled count limit
  simp only [listed, Except.map] at sampled
  rw [supports, conflicts, tuplesOn_eq count, tuplesOn_eq count, listed]
  generalize Intension.favoursSupports (rows.take (limit + 1)) = supports at decides sampled
  refine ⟨_, sampled, decides, lists.rowsOn supports, ?_⟩
  cases supports <;> rfl

/-- The first two tuples are conflicts, so the supports are kept. -/
theorem sampled_side_complete_quotientBelow :
    quotientBelow.firstFault? (product [[2, -3], [3, 0, 3]]) = none ∧
      quotientBelow.side [[2, -3], [3, 0, 3]] none 1 =
        .ok ⟨true, [[-3, 3], [-3, 0], [-3, 3]]⟩ := by
  have faultless : quotientBelow.firstFault? (product [[2, -3], [3, 0, 3]]) = none := rfl
  obtain ⟨⟨supports, tuples⟩, sampled, decides, kept, _⟩ := sampled_side_complete rfl 1 faultless
  have chosen : supports = true := decides.mpr (by decide)
  dsimp only at kept
  rw [chosen] at kept
  rw [sampled, kept, chosen]
  exact ⟨faultless, rfl⟩

end Program

end Intension
