import Intension.Proofs.Distinct
import Intension.Proofs.Expr.Renaming

namespace Intension

/-- The parameters among the leaves from a number on. -/
def Leaf.numbersFrom (first : Nat) (ls : List Leaf) : List Nat :=
  (ls.filterMap Leaf.param?).filter (first ≤ ·)

namespace Leaf

variable {first i : Nat} {l : Leaf}

theorem numbersFrom_param (new : first ≤ i) (ls : List Leaf) :
    numbersFrom first (.param i :: ls) = i :: numbersFrom first ls := by
  have read : param? (.param i) = some i := rfl
  rw [numbersFrom, List.filterMap_cons_some read, List.filter_cons, if_pos (decide_eq_true new), numbersFrom]

theorem numbersFrom_kept (old : ∀ i, l = .param i → i < first) (ls : List Leaf) :
    numbersFrom first (l :: ls) = numbersFrom first ls := by
  cases l with
  | param i =>
    have read : param? (.param i) = some i := rfl
    have small : ¬ decide (first ≤ i) = true := by simpa using old i rfl
    rw [numbersFrom, List.filterMap_cons_some read, List.filter_cons, if_neg small, numbersFrom]
  | var | const | wild => rfl

theorem filter_numbersFrom (first : Nat) (ls : List Leaf) :
    (numbersFrom first ls).filter (· ≠ first) = numbersFrom (first + 1) ls := by
  rw [numbersFrom, List.filter_filter, numbersFrom]
  apply List.filter_congr
  intro i _
  have same : (i ≠ first ∧ first ≤ i) ↔ first + 1 ≤ i := by omega
  rw [← Bool.decide_and, decide_eq_decide]
  exact same

end Leaf

namespace Abstraction

open Leaf

variable {mode : Abstraction} {first : Nat} {ls : List Leaf}

/-- The first occurrences of the new parameters count upwards, without a gap. -/
theorem distinctBy_number (mode : Abstraction) (old : ∀ i, .param i ∈ ls → i < first)
    (known : List Atom) :
    distinctBy id (numbersFrom (first + known.length) (mode.number first ls known).1) =
      List.range' (first + known.length) ((mode.number first ls known).2.length - known.length) := by
  induction ls generalizing known with
  | nil =>
    rw [number, Nat.sub_self]
    rfl
  | cons l ls ih =>
    have rest := ih fun i member => old i (List.mem_cons_of_mem l member)
    cases found : mode.atom? l with
    | some atom =>
      rw [number_atom found]
      rcases mode.assign_cases atom known with ⟨index, same, inside⟩ | ⟨same, _⟩
      · -- The parameter of a known atom lies below those that are counted from here on.
        have small : ∀ i, Leaf.param (first + index) = .param i → i < first + known.length := by
          intro i number
          cases number
          exact Nat.add_lt_add_left (List.getElem?_eq_some_iff.mp inside).1 first
        rw [same, numbersFrom_kept small]
        exact rest known
      · have later := rest (known ++ [atom])
        have grown := (mode.prefix_number first ls (known ++ [atom])).length_le
        rw [List.length_append, List.length_singleton] at later grown
        have count : (mode.number first ls (known ++ [atom])).2.length - known.length =
            (mode.number first ls (known ++ [atom])).2.length - (known.length + 1) + 1 := by omega
        rw [same, numbersFrom_param le_rfl, count, List.range'_succ, Nat.add_assoc, ← later, distinctBy,
          ← Nat.add_assoc, ← filter_numbersFrom, distinctBy_filter]
        rfl
    | none =>
      rw [number_kept found, numbersFrom_kept ?_]
      · exact rest known
      · intro i same
        exact Nat.lt_add_right _ (old i (same ▸ List.mem_cons_self))

theorem assign_unfolded (unfolded : mode.fold = false) (atom : Atom) (known : List Atom) :
    mode.assign atom known = (known.length, known ++ [atom]) := by
  rw [assign, unfolded]
  rfl

theorem number_unfolded (unfolded : mode.fold = false) (first : Nat) (ls : List Leaf) (known : List Atom) :
    (mode.number first ls known).2 = known ++ ls.filterMap mode.atom? := by
  induction ls generalizing known with
  | nil => rw [List.filterMap_nil, List.append_nil, number]
  | cons l ls ih =>
    cases found : mode.atom? l with
    | some atom =>
      rw [number_atom found, assign_unfolded unfolded, ih, List.filterMap_cons_some found, ← List.append_cons]
    | none => rw [number_kept found, ih, List.filterMap_cons_none found]

theorem numbersFrom_unfolded (unfolded : mode.fold = false) (old : ∀ i, .param i ∈ ls → i < first)
    (known : List Atom) :
    numbersFrom first (mode.number first ls known).1 =
      List.range' (first + known.length) (ls.filterMap mode.atom?).length := by
  induction ls generalizing known with
  | nil => rfl
  | cons l ls ih =>
    have rest := ih fun i member => old i (List.mem_cons_of_mem l member)
    cases found : mode.atom? l with
    | some atom =>
      rw [number_atom found, assign_unfolded unfolded, numbersFrom_param (Nat.le_add_right _ _), rest,
        List.filterMap_cons_some found, List.length_cons, List.range'_succ, List.length_append]
      rfl
    | none =>
      rw [number_kept found, numbersFrom_kept ?_, rest, List.filterMap_cons_none found]
      intro i same
      exact old i (same ▸ List.mem_cons_self)

theorem number_folded (folded : mode.fold = true) (first : Nat) (ls : List Leaf) (known : List Atom) :
    (mode.number first ls known).2 =
      known ++ (distinctBy id (ls.filterMap mode.atom?)).filter (· ∉ known) := by
  induction ls generalizing known with
  | nil => exact (List.append_nil known).symm
  | cons l ls ih =>
    cases found : mode.atom? l with
    | some atom =>
      rw [number_atom found, ih, List.filterMap_cons_some found]
      rcases mode.assign_cases atom known with ⟨index, same, inside⟩ | ⟨same, new⟩
      · rw [same, unmet_of_mem (List.mem_of_getElem? inside)]
      · rw [same, unmet_of_notMem (new folded)]
        exact List.append_assoc known [atom] _
    | none => rw [number_kept found, ih, List.filterMap_cons_none found]

end Abstraction

namespace Expr

open Abstraction

variable {e : Expr} {mode : Abstraction}

/-- The parameters of an abstraction that lie above all those of its expression, from left to right and
    with repeats. -/
def freshParameters (e : Expr) (mode : Abstraction) : List Nat :=
  (e.abstracted mode).1.parameters.filter (e.firstFree ≤ ·)

theorem old_parameters (e : Expr) (i : Nat) (member : .param i ∈ e.leaves) : i < e.firstFree :=
  lt_firstFree (mem_parameters.mpr member)

theorem freshParameters_eq (e : Expr) (mode : Abstraction) :
    e.freshParameters mode = Leaf.numbersFrom e.firstFree (mode.number e.firstFree e.leaves []).1 := by
  rw [number_abstracted]
  rfl

theorem distinctBy_freshParameters (e : Expr) (mode : Abstraction) :
    distinctBy id (e.freshParameters mode) = List.range' e.firstFree (e.abstracted mode).2.length := by
  have numbers := distinctBy_number mode e.old_parameters []
  rwa [number_abstracted] at numbers

theorem abstracted_unfolded (unfolded : mode.fold = false) (e : Expr) :
    (e.abstracted mode).2 = e.atoms mode ∧
      e.freshParameters mode = List.range' e.firstFree (e.abstracted mode).2.length := by
  have atoms := number_unfolded unfolded e.firstFree e.leaves []
  have numbers := numbersFrom_unfolded unfolded e.old_parameters []
  rw [number_abstracted] at atoms
  rw [← freshParameters_eq] at numbers
  rw [atoms]
  exact ⟨rfl, numbers⟩

theorem abstracted_folded (folded : mode.fold = true) (e : Expr) :
    (e.abstracted mode).2 = distinctBy id (e.atoms mode) := by
  have atoms := number_folded folded e.firstFree e.leaves []
  rw [number_abstracted] at atoms
  rw [atoms]
  simp [Expr.atoms]

/-- The parameter in the place of an atom is the number of that atom among those replaced. -/
theorem getElem?_abstracted {i : Nat} {atom : Atom} (here : e.leaves[i]?.bind mode.atom? = some atom) :
    ∃ index, (e.abstracted mode).2[index]? = some atom ∧
      (e.abstracted mode).1.leaves[i]? = some (.param (e.firstFree + index)) := by
  obtain ⟨l, inside, found⟩ := Option.bind_eq_some_iff.mp here
  obtain ⟨bound, rfl⟩ := List.getElem?_eq_some_iff.mp inside
  obtain ⟨length, each⟩ := List.forall₂_iff_get.mp (e.stands_abstracted mode)
  have stands := each i bound (length ▸ bound)
  rcases stands with ⟨kept, _⟩ | ⟨other, index, replaced, place, same⟩
  · cases found.symm.trans kept
  · cases found.symm.trans replaced
    exact ⟨index, place, List.getElem?_eq_some_iff.mpr ⟨length ▸ bound, same⟩⟩

theorem getElem?_abstracted_inj (folded : mode.fold = true) {i j : Nat} {a b : Atom}
    (first : e.leaves[i]?.bind mode.atom? = some a) (second : e.leaves[j]?.bind mode.atom? = some b) :
    (e.abstracted mode).1.leaves[i]? = (e.abstracted mode).1.leaves[j]? ↔ a = b := by
  obtain ⟨m, left, here⟩ := getElem?_abstracted first
  obtain ⟨n, right, there⟩ := getElem?_abstracted second
  rw [here, there, Option.some.injEq, Leaf.param.injEq, Nat.add_left_cancel_iff]
  constructor
  · intro same
    rw [same, right] at left
    exact (Option.some.inj left).symm
  · intro same
    have bound := (List.getElem?_eq_some_iff.mp left).1
    rw [← same, ← left] at right
    exact (List.getElem?_inj bound (nodup_abstracted folded e)).mp right.symm

/-- An abstraction leaves no leaf that it is to replace and changes nothing else. Its new parameters begin
    above those of the expression and are numbered without a gap in the order in which they first occur.
    Unfolded, each of them occurs once and stands for one place. Folded, each stands for one atom, so that
    places have the same parameter exactly if they have the same atom. -/
theorem abstracted_numbered (e : Expr) (mode : Abstraction) :
    (∀ v, .var v ∉ (e.abstracted mode).1.leaves) ∧
    (mode.constants = true → ∀ k, .const k ∉ (e.abstracted mode).1.leaves) ∧
    (e.abstracted mode).1.skeleton = e.skeleton ∧
    List.Forall₂ (mode.Stands e.firstFree (e.abstracted mode).2) e.leaves (e.abstracted mode).1.leaves ∧
    distinctBy id (e.freshParameters mode) = List.range' e.firstFree (e.abstracted mode).2.length ∧
    (mode.fold = false → (e.abstracted mode).2 = e.atoms mode ∧
      e.freshParameters mode = List.range' e.firstFree (e.abstracted mode).2.length) ∧
    (mode.fold = true → (e.abstracted mode).2 = distinctBy id (e.atoms mode) ∧
      ∀ (i j : Nat) (a b : Atom), e.leaves[i]?.bind mode.atom? = some a →
        e.leaves[j]?.bind mode.atom? = some b →
        ((e.abstracted mode).1.leaves[i]? = (e.abstracted mode).1.leaves[j]? ↔ a = b)) := by
  refine ⟨?_, ?_, skeleton_abstracted e mode, stands_abstracted e mode, distinctBy_freshParameters e mode,
    fun unfolded => abstracted_unfolded unfolded e, ?_⟩
  · intro v member
    cases atom?_of_mem_abstracted member
  · intro constants k member
    have kept := atom?_of_mem_abstracted member
    rw [atom?, if_pos constants] at kept
    cases kept
  · intro folded
    exact ⟨abstracted_folded folded e, fun i j a b => getElem?_abstracted_inj folded⟩

theorem abstracted_numbered_partlyAbstracted :
    (partlyAbstracted.abstracted ⟨true, true⟩).1.leaves =
        [.param 1, .param 2, .param 3, .param 2] ∧
      (∀ k, .const k ∉ (partlyAbstracted.abstracted ⟨true, true⟩).1.leaves) ∧
      ((partlyAbstracted.abstracted ⟨true, false⟩).2 = partlyAbstracted.atoms ⟨true, false⟩ ∧
        partlyAbstracted.freshParameters ⟨true, false⟩ = List.range' 2 3) ∧
      (partlyAbstracted.abstracted ⟨true, true⟩).2 =
        distinctBy id (partlyAbstracted.atoms ⟨true, true⟩) ∧
      ((partlyAbstracted.abstracted ⟨true, true⟩).1.leaves[1]? =
          (partlyAbstracted.abstracted ⟨true, true⟩).1.leaves[2]? ↔
        Atom.var ⟨4, "x"⟩ = .const 3) := by
  have unfolded := (abstracted_numbered partlyAbstracted ⟨true, false⟩).2.2.2.2.2.1 rfl
  have folded := (abstracted_numbered partlyAbstracted ⟨true, true⟩).2.2.2.2.2.2 rfl
  exact ⟨rfl, (abstracted_numbered partlyAbstracted ⟨true, true⟩).2.1 rfl, unfolded, folded.1,
    folded.2 1 2 _ _ rfl rfl⟩

end Expr

end Intension
