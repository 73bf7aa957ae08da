import Mathlib.Data.Set.Function
import Intension.Proofs.Expr.Instance

namespace Intension

section Lists

variable {α β : Type} [DecidableEq α] [DecidableEq β]

theorem idxOf?_map {f : α → β} {as : List α} {a : α} (injective : ∀ b ∈ as, f b = f a → b = a) :
    (as.map f).idxOf? (f a) = as.idxOf? a := by
  induction as with
  | nil => rfl
  | cons b as ih =>
    have rest := ih (fun other member => injective other (List.mem_cons_of_mem _ member))
    have here : f b = f a ↔ b = a := ⟨injective b List.mem_cons_self, congrArg f⟩
    simp only [List.map_cons, List.idxOf?_cons, beq_iff_eq, here, rest]

/-- What stands in the second list where the given one stands in the first. -/
def counterpart (as bs : List α) (a : α) : α := bs.getD (as.idxOf a) a

theorem counterpart_getElem {as bs : List α} (nodup : as.Nodup) {i : Nat} {a b : α}
    (first : as[i]? = some a) (second : bs[i]? = some b) : counterpart as bs a = b := by
  obtain ⟨bound, rfl⟩ := List.getElem?_eq_some_iff.mp first
  rw [counterpart, nodup.idxOf_getElem, List.getD_eq_getElem?_getD, second, Option.getD_some]

theorem bijOn_counterpart {as bs : List α} (first : as.Nodup) (second : bs.Nodup)
    (length : as.length = bs.length) :
    Set.BijOn (counterpart as bs) {a | a ∈ as} {b | b ∈ bs} := by
  have paired (i : Nat) (inside : i < as.length) (other : i < bs.length) :
      counterpart as bs as[i] = bs[i] :=
    counterpart_getElem first (List.getElem?_eq_getElem inside) (List.getElem?_eq_getElem other)
  refine ⟨?_, ?_, ?_⟩
  · intro a member
    obtain ⟨i, inside, rfl⟩ := List.getElem_of_mem member
    rw [paired i inside (length ▸ inside)]
    exact List.getElem_mem _
  · intro a member b other same
    obtain ⟨i, inside, rfl⟩ := List.getElem_of_mem member
    obtain ⟨j, within, rfl⟩ := List.getElem_of_mem other
    rw [paired i inside (length ▸ inside), paired j within (length ▸ within)] at same
    have places := second.getElem_inj_iff.mp same
    subst places
    rfl
  · intro b member
    obtain ⟨i, inside, rfl⟩ := List.getElem_of_mem member
    exact ⟨as[i], List.getElem_mem (length ▸ inside), paired i (length ▸ inside) inside⟩

end Lists

namespace Abstraction

/-- The leaf with another atom in the place of one that the abstraction replaces. -/
def renamed (mode : Abstraction) (rename : Atom → Atom) (l : Leaf) : Leaf :=
  match mode.atom? l with
  | some atom => (rename atom).leaf
  | none => l

variable {mode : Abstraction} {rename : Atom → Atom}

theorem renamed_atom {l : Leaf} {atom : Atom} (found : mode.atom? l = some atom) :
    mode.renamed rename l = (rename atom).leaf := by
  simp only [renamed, found]

theorem renamed_kept {l : Leaf} (kept : mode.atom? l = none) : mode.renamed rename l = l := by
  simp only [renamed, kept]

theorem assign_map {atom : Atom} {known : List Atom}
    (injective : ∀ other ∈ known, rename other = rename atom → other = atom) :
    mode.assign (rename atom) (known.map rename) =
      ((mode.assign atom known).1, (mode.assign atom known).2.map rename) := by
  unfold assign
  rw [idxOf?_map injective]
  split
  · rfl
  · rw [List.length_map, List.map_append, List.map_singleton]

/-- Numbers do not depend on what the atoms are, only on which of them are equal. -/
theorem number_renamed {atoms : Set Atom} (injective : Set.InjOn rename atoms)
    (replaced : ∀ atom ∈ atoms, mode.atom? (rename atom).leaf = some (rename atom)) (first : Nat)
    (ls : List Leaf) (occur : ∀ atom ∈ ls.filterMap mode.atom?, atom ∈ atoms) (known : List Atom)
    (met : ∀ atom ∈ known, atom ∈ atoms) :
    mode.number first (ls.map (mode.renamed rename)) (known.map rename) =
      ((mode.number first ls known).1, (mode.number first ls known).2.map rename) := by
  induction ls generalizing known with
  | nil => rfl
  | cons l ls ih =>
    cases found : mode.atom? l with
    | some atom =>
      rw [List.filterMap_cons_some found] at occur
      have here : atom ∈ atoms := occur atom List.mem_cons_self
      have others := ih (fun other member => occur other (List.mem_cons_of_mem _ member))
        (mode.assign atom known).2 (by
          intro other member
          rcases mem_assign.mp member with rfl | member
          · exact here
          · exact met other member)
      rw [List.map_cons, renamed_atom found, number_atom (replaced atom here), number_atom found,
        assign_map (fun other member same => injective (met other member) here same), others]
    | none =>
      rw [List.filterMap_cons_none found] at occur
      rw [List.map_cons, renamed_kept found, number_kept found, number_kept found, ih occur known met]

end Abstraction

namespace Expr

open Abstraction

/-- The expression with other atoms in the places of those that the abstraction replaces. -/
def renamed (mode : Abstraction) (rename : Atom → Atom) (e : Expr) : Expr :=
  e.mapLeaves (mode.renamed rename)

variable {mode : Abstraction} {rename : Atom → Atom}

theorem atom?_of_mem_atoms {e : Expr} {atom : Atom} (member : atom ∈ e.atoms mode) :
    mode.atom? atom.leaf = some atom := by
  obtain ⟨l, _, found⟩ := List.mem_filterMap.mp member
  rwa [eq_leaf_of_atom? found] at found

theorem abstracted_renamed {a : Expr} (noParameters : a.parameters = [])
    (others : (a.renamed mode rename).parameters = [])
    (bijective : Set.BijOn rename {atom | atom ∈ a.atoms mode}
      {atom | atom ∈ (a.renamed mode rename).atoms mode}) :
    ((a.renamed mode rename).abstracted mode).1 = (a.abstracted mode).1 := by
  apply eq_of_skeleton
  · rw [skeleton_abstracted, skeleton_abstracted, renamed, skeleton_mapLeaves]
  · have numbers := number_renamed bijective.injOn
      (fun atom member => atom?_of_mem_atoms (bijective.mapsTo member)) 0
      a.leaves (fun atom member => member) [] (fun atom member => nomatch member)
    have first := a.number_abstracted mode
    have second := (a.renamed mode rename).number_abstracted mode
    rw [firstFree_eq_zero noParameters] at first
    rw [firstFree_eq_zero others, renamed, leaves_mapLeaves] at second
    rw [List.map_nil, second, first] at numbers
    exact congrArg Prod.fst numbers

theorem length_abstracted {a b : Expr} (first : a.parameters = []) (second : b.parameters = [])
    (same : (a.abstracted mode).1 = (b.abstracted mode).1) :
    (a.abstracted mode).2.length = (b.abstracted mode).2.length := by
  have numbers (i : Nat) : i < (a.abstracted mode).2.length ↔ i < (b.abstracted mode).2.length := by
    rw [← mem_parameters_of_numberless first, same, mem_parameters_of_numberless second]
  have left := numbers (a.abstracted mode).2.length
  have right := numbers (b.abstracted mode).2.length
  omega

theorem nodup_abstracted (fold : mode.fold) (e : Expr) : (e.abstracted mode).2.Nodup := by
  have nodup := nodup_number fold e.firstFree List.nodup_nil e.leaves
  rwa [number_abstracted] at nodup

theorem filled_of_numberless {e : Expr} (noParameters : e.parameters = []) (mode : Abstraction) :
    (e.abstracted mode).1.mapLeaves (Leaf.filled (e.abstracted mode).2) = e := by
  have filled := filled_abstracted [] mode (firstFree_eq_zero noParameters).symm
  rwa [List.nil_append, filled_numberless noParameters] at filled

/-- The atoms that two expressions have at the same numbers are counterparts. -/
theorem renamed_counterpart (fold : mode.fold) {a b : Expr} (first : a.parameters = [])
    (second : b.parameters = []) (same : (a.abstracted mode).1 = (b.abstracted mode).1) :
    a.renamed mode (counterpart (a.abstracted mode).2 (b.abstracted mode).2) = b := by
  have leaf (l : Leaf) (member : l ∈ (a.abstracted mode).1.leaves) :
      mode.renamed (counterpart (a.abstracted mode).2 (b.abstracted mode).2)
        (Leaf.filled (a.abstracted mode).2 l) = Leaf.filled (b.abstracted mode).2 l := by
    by_cases parameter : ∃ i, l = .param i
    · obtain ⟨i, rfl⟩ := parameter
      have bound := (mem_parameters_of_numberless first mode i).mp (mem_parameters.mpr member)
      have left := List.getElem?_eq_getElem bound
      have right := List.getElem?_eq_getElem (length_abstracted first second same ▸ bound)
      have replaced := atom?_of_mem_atoms (mem_abstracted.mp (List.getElem_mem bound))
      rw [Leaf.filled_param left, Leaf.filled_param right, renamed_atom replaced,
        counterpart_getElem (nodup_abstracted fold a) left right]
    · push Not at parameter
      rw [Leaf.filled_other parameter, Leaf.filled_other parameter,
        renamed_kept (atom?_of_mem_abstracted member)]
  calc a.renamed mode (counterpart (a.abstracted mode).2 (b.abstracted mode).2)
      = ((a.abstracted mode).1.mapLeaves (Leaf.filled (a.abstracted mode).2)).renamed mode
          (counterpart (a.abstracted mode).2 (b.abstracted mode).2) := by
        rw [filled_of_numberless first]
    _ = (a.abstracted mode).1.mapLeaves (Leaf.filled (b.abstracted mode).2) := by
        rw [renamed, mapLeaves_mapLeaves]
        exact mapLeaves_congr leaf
    _ = b := by rw [same, filled_of_numberless second]

/-- Folded abstractions agree exactly for expressions that are equal up to a one-to-one exchange of
    the atoms that they replace. -/
theorem abstracted_eq_iff_renamed (constants : Bool) {a b : Expr} (first : a.parameters = [])
    (second : b.parameters = []) :
    (a.abstracted ⟨constants, true⟩).1 = (b.abstracted ⟨constants, true⟩).1 ↔
      ∃ rename : Atom → Atom,
        Set.BijOn rename {atom | atom ∈ a.atoms ⟨constants, true⟩}
          {atom | atom ∈ b.atoms ⟨constants, true⟩} ∧
        a.renamed ⟨constants, true⟩ rename = b := by
  constructor
  · intro same
    refine ⟨counterpart (a.abstracted ⟨constants, true⟩).2 (b.abstracted ⟨constants, true⟩).2, ?_,
      renamed_counterpart rfl first second same⟩
    have bijective := bijOn_counterpart (nodup_abstracted rfl a) (nodup_abstracted rfl b)
      (length_abstracted first second same)
    simpa only [mem_abstracted] using bijective
  · rintro ⟨rename, bijective, rfl⟩
    exact (abstracted_renamed first second bijective).symm

def incremented (x y : Variable) (k : Word) : Expr :=
  .node .eq [.node .add [.leaf (.var x), .leaf (.const k)], .node .mul [.leaf (.var y), .leaf (.var x)]]

theorem abstracted_eq_iff_renamed_incremented :
    (incremented ⟨0, "x"⟩ ⟨1, "y"⟩ 1).parameters = [] ∧
      (∃ rename : Atom → Atom,
        Set.BijOn rename {atom | atom ∈ (incremented ⟨0, "x"⟩ ⟨1, "y"⟩ 1).atoms ⟨true, true⟩}
          {atom | atom ∈ (incremented ⟨7, "u"⟩ ⟨8, "w"⟩ 5).atoms ⟨true, true⟩} ∧
        (incremented ⟨0, "x"⟩ ⟨1, "y"⟩ 1).renamed ⟨true, true⟩ rename =
          incremented ⟨7, "u"⟩ ⟨8, "w"⟩ 5) ∧
      ¬ ∃ rename : Atom → Atom,
        Set.BijOn rename {atom | atom ∈ (incremented ⟨0, "x"⟩ ⟨1, "y"⟩ 1).atoms ⟨false, true⟩}
          {atom | atom ∈ (incremented ⟨7, "u"⟩ ⟨7, "u"⟩ 1).atoms ⟨false, true⟩} ∧
        (incremented ⟨0, "x"⟩ ⟨1, "y"⟩ 1).renamed ⟨false, true⟩ rename =
          incremented ⟨7, "u"⟩ ⟨7, "u"⟩ 1 :=
  ⟨rfl, (abstracted_eq_iff_renamed true rfl rfl).mp rfl,
    mt (abstracted_eq_iff_renamed false rfl rfl).mpr (by decide)⟩

end Expr

end Intension
