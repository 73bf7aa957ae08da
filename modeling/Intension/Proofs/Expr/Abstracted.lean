import Mathlib.Data.List.Nodup
import Intension.Expr.Abstraction
import Intension.Proofs.Expr.Skeleton
import Intension.Proofs.Pointwise

namespace Intension

section Lists

variable {α : Type} [DecidableEq α] {as : List α} {a b : α}

theorem idxOf?_concat_self (new : as.idxOf? a = none) : (as ++ [a]).idxOf? a = some as.length := by
  rw [List.idxOf?] at new
  simp [List.idxOf?, List.findIdx?_append, new]

theorem idxOf?_concat_of_ne (other : b ≠ a) : (as ++ [b]).idxOf? a = as.idxOf? a := by
  simp [List.idxOf?, List.findIdx?_append, other]

end Lists

namespace Abstraction

/-- The place of the atom among those that are known, counted from zero, and what is known then. -/
def assign (mode : Abstraction) (atom : Atom) (known : List Atom) : Nat × List Atom :=
  match if mode.fold then known.idxOf? atom else none with
  | some index => (index, known)
  | none => (known.length, known ++ [atom])

/-- What an abstraction makes of leaves from left to right. -/
def number (mode : Abstraction) (first : Nat) : List Leaf → List Atom → List Leaf × List Atom
  | [], known => ([], known)
  | l :: ls, known =>
    match mode.atom? l with
    | some atom =>
      let (index, known) := mode.assign atom known
      let (ls, known) := number mode first ls known
      (.param (first + index) :: ls, known)
    | none =>
      let (ls, known) := number mode first ls known
      (l :: ls, known)

/-- A leaf and what it becomes when the new parameters stand for the given atoms. -/
def Stands (mode : Abstraction) (first : Nat) (atoms : List Atom) (l m : Leaf) : Prop :=
  (mode.atom? l = none ∧ m = l) ∨
    ∃ atom index, mode.atom? l = some atom ∧ atoms[index]? = some atom ∧ m = .param (first + index)

variable {mode : Abstraction} {first : Nat}

theorem eq_leaf_of_atom? {l : Leaf} {atom : Atom} (found : mode.atom? l = some atom) :
    l = atom.leaf := by
  cases l with
  | var v =>
    cases found
    rfl
  | const k =>
    simp only [atom?] at found
    split at found <;> cases found
    rfl
  | param i => cases found
  | wild w => cases found

theorem assign_cases (mode : Abstraction) (atom : Atom) (known : List Atom) :
    (∃ index, mode.assign atom known = (index, known) ∧ known[index]? = some atom) ∨
      (mode.assign atom known = (known.length, known ++ [atom]) ∧ (mode.fold → atom ∉ known)) := by
  unfold assign
  split
  · rename_i index found
    split at found
    · obtain ⟨bound, same, _⟩ := List.idxOf?_eq_some_iff.mp found
      exact .inl ⟨index, rfl, List.getElem?_eq_some_iff.mpr ⟨bound, same⟩⟩
    · cases found
  · rename_i missing
    refine .inr ⟨rfl, ?_⟩
    intro fold
    rw [if_pos fold] at missing
    exact List.idxOf?_eq_none_iff.mp missing

theorem number_atom {l : Leaf} {atom : Atom} (found : mode.atom? l = some atom) (ls : List Leaf)
    (known : List Atom) :
    mode.number first (l :: ls) known =
      (.param (first + (mode.assign atom known).1) ::
        (mode.number first ls (mode.assign atom known).2).1,
        (mode.number first ls (mode.assign atom known).2).2) := by
  simp only [number, found]

theorem number_kept {l : Leaf} (kept : mode.atom? l = none) (ls : List Leaf) (known : List Atom) :
    mode.number first (l :: ls) known =
      (l :: (mode.number first ls known).1, (mode.number first ls known).2) := by
  simp only [number, kept]

theorem number_append (ls ms : List Leaf) (known : List Atom) :
    mode.number first (ls ++ ms) known =
      ((mode.number first ls known).1 ++ (mode.number first ms (mode.number first ls known).2).1,
        (mode.number first ms (mode.number first ls known).2).2) := by
  induction ls generalizing known with
  | nil => rfl
  | cons l ls ih =>
    cases found : mode.atom? l with
    | some atom => rw [List.cons_append, number_atom found, number_atom found, ih, List.cons_append]
    | none => rw [List.cons_append, number_kept found, number_kept found, ih, List.cons_append]

theorem prefix_assign (mode : Abstraction) (atom : Atom) (known : List Atom) :
    known <+: (mode.assign atom known).2 := by
  rcases mode.assign_cases atom known with ⟨index, same, _⟩ | ⟨same, _⟩
  · simp only [same, List.prefix_refl]
  · simp only [same, List.prefix_append]

theorem getElem?_assign (mode : Abstraction) (atom : Atom) (known : List Atom) :
    (mode.assign atom known).2[(mode.assign atom known).1]? = some atom := by
  rcases mode.assign_cases atom known with ⟨index, same, found⟩ | ⟨same, _⟩
  · rw [same]
    exact found
  · rw [same]
    exact List.getElem?_concat_length

theorem prefix_number (mode : Abstraction) (first : Nat) (ls : List Leaf) (known : List Atom) :
    known <+: (mode.number first ls known).2 := by
  induction ls generalizing known with
  | nil => exact List.prefix_refl known
  | cons l ls ih =>
    cases found : mode.atom? l with
    | some atom =>
      rw [number_atom found]
      exact (mode.prefix_assign atom known).trans (ih _)
    | none =>
      rw [number_kept found]
      exact ih known

/-- Every leaf becomes what stands for it among all atoms that are known in the end. -/
theorem number_stands (mode : Abstraction) (first : Nat) (ls : List Leaf) (known : List Atom) :
    List.Forall₂ (mode.Stands first (mode.number first ls known).2) ls
      (mode.number first ls known).1 := by
  induction ls generalizing known with
  | nil => exact .nil
  | cons l ls ih =>
    cases found : mode.atom? l with
    | some atom =>
      rw [number_atom found]
      obtain ⟨bound, here⟩ := List.getElem?_eq_some_iff.mp (mode.getElem?_assign atom known)
      have later := List.prefix_iff_getElem?.mp (mode.prefix_number first ls _) _ bound
      rw [here] at later
      exact .cons (.inr ⟨atom, _, found, later, rfl⟩) (ih _)
    | none =>
      rw [number_kept found]
      exact .cons (.inl ⟨found, rfl⟩) (ih known)

/-- No number is left out. -/
theorem param_mem_number {ls : List Leaf} {known : List Atom} {index : Nat}
    (new : known.length ≤ index) (bound : index < (mode.number first ls known).2.length) :
    .param (first + index) ∈ (mode.number first ls known).1 := by
  induction ls generalizing known with
  | nil => exact absurd bound (Nat.not_lt.mpr new)
  | cons l ls ih =>
    cases found : mode.atom? l with
    | some atom =>
      rw [number_atom found] at bound ⊢
      rcases mode.assign_cases atom known with ⟨place, same, _⟩ | ⟨same, _⟩
      · rw [same] at bound ⊢
        exact List.mem_cons_of_mem _ (ih new bound)
      · rw [same] at bound ⊢
        by_cases here : index = known.length
        · rw [here]
          exact List.mem_cons_self
        · have later : (known ++ [atom]).length ≤ index := by
            rw [List.length_append, List.length_singleton]
            omega
          exact List.mem_cons_of_mem _ (ih later bound)
    | none =>
      rw [number_kept found] at bound ⊢
      exact List.mem_cons_of_mem _ (ih new bound)

theorem mem_assign {atom other : Atom} {known : List Atom} :
    other ∈ (mode.assign atom known).2 ↔ other = atom ∨ other ∈ known := by
  rcases mode.assign_cases atom known with ⟨index, same, found⟩ | ⟨same, _⟩
  · rw [same]
    have member := List.mem_of_getElem? found
    constructor
    · exact .inr
    · rintro (rfl | inside)
      · exact member
      · exact inside
  · rw [same, List.mem_append, List.mem_singleton, or_comm]

theorem mem_number (mode : Abstraction) (first : Nat) (ls : List Leaf) (known : List Atom)
    (atom : Atom) :
    atom ∈ (mode.number first ls known).2 ↔ atom ∈ known ∨ atom ∈ ls.filterMap mode.atom? := by
  induction ls generalizing known with
  | nil => simp [number]
  | cons l ls ih =>
    cases found : mode.atom? l with
    | some other =>
      rw [number_atom found, ih, mem_assign, List.filterMap_cons_some found, List.mem_cons]
      tauto
    | none => rw [number_kept found, ih, List.filterMap_cons_none found]

theorem nodup_number (fold : mode.fold) (first : Nat) {known : List Atom} (nodup : known.Nodup)
    (ls : List Leaf) : (mode.number first ls known).2.Nodup := by
  induction ls generalizing known with
  | nil => exact nodup
  | cons l ls ih =>
    cases found : mode.atom? l with
    | some atom =>
      rw [number_atom found]
      apply ih
      rcases mode.assign_cases atom known with ⟨index, same, _⟩ | ⟨same, new⟩
      · rw [same]
        exact nodup
      · rw [same, ← List.concat_eq_append]
        exact List.Nodup.concat (new fold) nodup
    | none =>
      rw [number_kept found]
      exact ih nodup

end Abstraction

namespace Numbering

variable {mode : Abstraction} {first : Nat} {known : List Atom} {s : Numbering}

/-- A numbering that began at the given number and has numbered the known atoms. Its counter and its
    table of numbers can be read off what it has replaced. -/
structure Agrees (mode : Abstraction) (first : Nat) (known : List Atom) (s : Numbering) : Prop where
  next : s.next = first + known.length
  allocated : mode.fold → ∀ atom, s.allocated.lookup atom = (known.idxOf? atom).map (first + ·)
  replaced : s.replaced = known

theorem agrees_start (mode : Abstraction) (first : Nat) : Agrees mode first [] ⟨first, [], []⟩ :=
  ⟨rfl, fun _ _ => rfl, rfl⟩

theorem Agrees.lookup (agrees : s.Agrees mode first known) (atom : Atom) :
    (if mode.fold then s.allocated.lookup atom else none) =
      (if mode.fold then known.idxOf? atom else none).map (first + ·) := by
  by_cases fold : mode.fold
  · rw [if_pos fold, if_pos fold, agrees.allocated fold]
  · rw [if_neg fold, if_neg fold, Option.map_none]

/-- One atom more keeps the counter, the table and the list in step. -/
theorem Agrees.allocate (agrees : s.Agrees mode first known) (atom : Atom) :
    (mode.allocate atom s).1 = first + (mode.assign atom known).1 ∧
      (mode.allocate atom s).2.Agrees mode first (mode.assign atom known).2 := by
  rw [Abstraction.allocate, agrees.lookup atom, Abstraction.assign]
  cases found : if mode.fold then known.idxOf? atom else none with
  | some index => exact ⟨rfl, agrees⟩
  | none =>
    refine ⟨agrees.next, ?_, ?_, ?_⟩
    · rw [List.length_append, List.length_singleton, ← Nat.add_assoc]
      exact congrArg (· + 1) agrees.next
    · intro fold other
      rw [if_pos fold] at found
      dsimp only [Option.map_none]
      rw [if_pos fold, List.lookup_cons, agrees.allocated fold]
      by_cases same : other = atom
      · rw [same, BEq.rfl, idxOf?_concat_self found, agrees.next]
        rfl
      · rw [beq_false_of_ne same, idxOf?_concat_of_ne (Ne.symm same)]
    · exact congrArg (· ++ [atom]) agrees.replaced

end Numbering

namespace Expr

open Abstraction

variable {mode : Abstraction} {first : Nat}

theorem number_leavesList {es : List Expr}
    (each : ∀ e ∈ es, ∀ (s : Numbering) (known : List Atom), s.Agrees mode first known →
      (e.abstractFrom mode s).1.leaves = (mode.number first e.leaves known).1 ∧
        (e.abstractFrom mode s).2.Agrees mode first (mode.number first e.leaves known).2)
    {s : Numbering} {known : List Atom} (agrees : s.Agrees mode first known) :
    leavesList (abstractListFrom mode es s).1 = (mode.number first (leavesList es) known).1 ∧
      (abstractListFrom mode es s).2.Agrees mode first (mode.number first (leavesList es) known).2 := by
  induction es generalizing s known with
  | nil => exact ⟨rfl, agrees⟩
  | cons e es ih =>
    obtain ⟨here, agrees⟩ := each e List.mem_cons_self s known agrees
    obtain ⟨others, agrees⟩ := ih (fun other member => each other (List.mem_cons_of_mem _ member)) agrees
    rw [leavesList, number_append, ← here, ← others]
    exact ⟨rfl, agrees⟩

theorem number_leaves (e : Expr) {s : Numbering} {known : List Atom} (agrees : s.Agrees mode first known) :
    (e.abstractFrom mode s).1.leaves = (mode.number first e.leaves known).1 ∧
      (e.abstractFrom mode s).2.Agrees mode first (mode.number first e.leaves known).2 := by
  induction e using Expr.induction generalizing s known with
  | leaf l =>
    cases found : mode.atom? l with
    | some atom =>
      obtain ⟨index, agrees⟩ := agrees.allocate atom
      rw [leaves, number_atom found, ← index]
      simp only [abstractFrom, found]
      exact ⟨rfl, agrees⟩
    | none =>
      rw [leaves, number_kept found]
      simp only [abstractFrom, found]
      exact ⟨rfl, agrees⟩
  | node op args ih =>
    exact number_leavesList (fun e member s known agrees => ih e member agrees) agrees

theorem skeleton_abstractList {es : List Expr}
    (each : ∀ e ∈ es, ∀ s, (e.abstractFrom mode s).1.skeleton = e.skeleton) (s : Numbering) :
    (abstractListFrom mode es s).1.map skeleton = es.map skeleton := by
  induction es generalizing s with
  | nil => rfl
  | cons e es ih =>
    rw [List.map_cons, ← each e List.mem_cons_self s,
      ← ih (fun other member => each other (List.mem_cons_of_mem _ member))]
    rfl

theorem skeleton_abstractFrom (e : Expr) (s : Numbering) :
    (e.abstractFrom mode s).1.skeleton = e.skeleton := by
  induction e using Expr.induction generalizing s with
  | leaf l =>
    rw [abstractFrom]
    split <;> rfl
  | node op args ih =>
    rw [skeleton_node, ← skeleton_abstractList ih s, ← skeleton_node]
    rfl

/-- The atoms that an abstraction replaces, from left to right and with repeats. -/
def atoms (mode : Abstraction) (e : Expr) : List Atom := e.leaves.filterMap mode.atom?

theorem number_abstracted (e : Expr) (mode : Abstraction) :
    mode.number e.firstFree e.leaves [] =
      ((e.abstracted mode).1.leaves, (e.abstracted mode).2) := by
  obtain ⟨leaves, agrees⟩ := number_leaves e (Numbering.agrees_start mode e.firstFree)
  exact Prod.ext leaves.symm agrees.replaced.symm

theorem skeleton_abstracted (e : Expr) (mode : Abstraction) :
    (e.abstracted mode).1.skeleton = e.skeleton := skeleton_abstractFrom e _

theorem stands_abstracted (e : Expr) (mode : Abstraction) :
    List.Forall₂ (mode.Stands e.firstFree (e.abstracted mode).2) e.leaves
      (e.abstracted mode).1.leaves := by
  have stands := mode.number_stands e.firstFree e.leaves []
  rwa [number_abstracted] at stands

theorem mem_abstracted {e : Expr} {atom : Atom} :
    atom ∈ (e.abstracted mode).2 ↔ atom ∈ e.atoms mode := by
  have member := mode.mem_number e.firstFree e.leaves [] atom
  rwa [number_abstracted, List.mem_nil_iff, false_or] at member

end Expr

end Intension
