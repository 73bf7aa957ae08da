import Intension.Proofs.Expr.Abstracted
import Intension.Proofs.Outcome
import Intension.Proofs.Program.Slots

namespace Intension

/-- The leaf with an argument for a parameter. A parameter without one stays. -/
def Leaf.filled (arguments : List Atom) : Leaf → Leaf
  | .param i =>
    match arguments[i]? with
    | some atom => atom.leaf
    | none => .param i
  | l => l

theorem Leaf.filled_param {arguments : List Atom} {i : Nat} {atom : Atom}
    (found : arguments[i]? = some atom) : Leaf.filled arguments (.param i) = atom.leaf := by
  simp only [Leaf.filled, found]

theorem Leaf.filled_other {l : Leaf} (other : ∀ i, l ≠ .param i) (arguments : List Atom) :
    Leaf.filled arguments l = l := by
  cases l with
  | param i => exact absurd rfl (other i)
  | var v => rfl
  | const k => rfl
  | wild w => rfl

theorem Leaf.filled_append {more : List Atom} {l : Leaf} {arguments : List Atom}
    (known : ∀ i, l = .param i → i < arguments.length) :
    Leaf.filled (arguments ++ more) l = Leaf.filled arguments l := by
  cases l with
  | param i => simp only [Leaf.filled, List.getElem?_append_left (known i rfl)]
  | var v => rfl
  | const k => rfl
  | wild w => rfl

namespace Expr

/-- The leftmost parameter beyond the given number of arguments. -/
def unfilled? (given : Nat) (ls : List Leaf) : Option Nat :=
  (ls.filterMap Leaf.param?).find? (given ≤ ·)

theorem unfilled?_append (given : Nat) (ls ms : List Leaf) :
    unfilled? given (ls ++ ms) = (unfilled? given ls).or (unfilled? given ms) := by
  rw [unfilled?, List.filterMap_append, List.find?_append, unfilled?, unfilled?]

theorem unfilled?_eq_none_iff {given : Nat} {ls : List Leaf} :
    unfilled? given ls = none ↔ ∀ i ∈ ls.filterMap Leaf.param?, i < given := by
  rw [unfilled?, List.find?_eq_none]
  simp only [decide_eq_true_eq, Nat.not_le]

theorem instantiateList_eq {arguments : List Atom} {es : List Expr}
    (each : ∀ e ∈ es, e.instantiate arguments =
      match unfilled? arguments.length e.leaves with
      | some i => .error (.missingArgument i arguments.length)
      | none => .ok (e.mapLeaves (Leaf.filled arguments))) :
    instantiateList arguments es =
      match unfilled? arguments.length (leavesList es) with
      | some i => .error (.missingArgument i arguments.length)
      | none => .ok (es.map (mapLeaves (Leaf.filled arguments))) := by
  induction es with
  | nil => rfl
  | cons e es ih =>
    rw [instantiateList, each e List.mem_cons_self,
      ih (fun other member => each other (List.mem_cons_of_mem _ member)), leavesList, unfilled?_append]
    cases unfilled? arguments.length e.leaves with
    | some i => rfl
    | none => cases unfilled? arguments.length (leavesList es) <;> rfl

/-- An expression has an instance unless one of its parameters lies beyond the arguments. -/
theorem instantiate_eq (arguments : List Atom) (e : Expr) :
    e.instantiate arguments =
      match unfilled? arguments.length e.leaves with
      | some i => .error (.missingArgument i arguments.length)
      | none => .ok (e.mapLeaves (Leaf.filled arguments)) := by
  induction e using Expr.induction with
  | leaf l =>
    cases l with
    | param i =>
      simp only [instantiate, leaves, unfilled?, List.filterMap_cons, Leaf.param?, List.filterMap_nil,
        List.find?_singleton, decide_eq_true_eq, mapLeaves, Leaf.filled]
      by_cases missing : arguments.length ≤ i
      · rw [List.getElem?_eq_none missing, if_pos missing]
      · rw [List.getElem?_eq_getElem (Nat.lt_of_not_le missing), if_neg missing]
    | var v => rfl
    | const k => rfl
    | wild w => rfl
  | node op args ih =>
    rw [instantiate, instantiateList_eq ih, leaves, mapLeaves_node]
    cases unfilled? arguments.length (leavesList args) <;> rfl

theorem instantiate_of_lt {arguments : List Atom} {e : Expr}
    (enough : ∀ i ∈ e.parameters, i < arguments.length) :
    e.instantiate arguments = .ok (e.mapLeaves (Leaf.filled arguments)) := by
  rw [instantiate_eq, unfilled?_eq_none_iff.mpr enough]

theorem firstFree_eq_zero {e : Expr} (noParameters : e.parameters = []) : e.firstFree = 0 := by
  rw [firstFree, highestParameter?, noParameters]
  rfl

theorem lt_firstFree {e : Expr} {i : Nat} (used : i ∈ e.parameters) : i < e.firstFree := by
  rw [firstFree, highestParameter?]
  cases found : e.parameters.max? with
  | none =>
    rw [List.max?_eq_none_iff.mp found] at used
    contradiction
  | some highest => exact Nat.lt_succ_of_le ((List.max?_eq_some_iff.mp found).2 i used)

theorem instantiate_of_missing {arguments : List Atom} {e : Expr} {i : Nat} (used : i ∈ e.parameters)
    (missing : arguments.length ≤ i) :
    ∃ j, e.instantiate arguments = .error (.missingArgument j arguments.length) := by
  rw [instantiate_eq]
  cases found : unfilled? arguments.length e.leaves with
  | some j => exact ⟨j, rfl⟩
  | none => exact absurd (unfilled?_eq_none_iff.mp found i used) (Nat.not_lt.mpr missing)

theorem exists_of_lt_firstFree {e : Expr} {given : Nat} (few : given < e.firstFree) :
    ∃ i ∈ e.parameters, given ≤ i := by
  rw [firstFree, highestParameter?] at few
  cases found : e.parameters.max? with
  | none =>
    rw [found] at few
    exact absurd few (Nat.not_lt_zero _)
  | some highest =>
    rw [found] at few
    exact ⟨highest, (List.max?_eq_some_iff.mp found).1, Nat.le_of_lt_succ few⟩

variable {mode : Abstraction}

/-- No leaf that the abstraction replaces is left. -/
theorem atom?_of_mem_abstracted {e : Expr} {m : Leaf} (member : m ∈ (e.abstracted mode).1.leaves) :
    mode.atom? m = none := by
  obtain ⟨l, _, stands⟩ := exists_of_forall₂ (e.stands_abstracted mode).flip member
  rcases stands with ⟨kept, rfl⟩ | ⟨_, _, _, _, rfl⟩
  · exact kept
  · rfl

theorem mem_parameters_abstracted {e : Expr} {i : Nat} :
    i ∈ (e.abstracted mode).1.parameters ↔
      i ∈ e.parameters ∨
        (e.firstFree ≤ i ∧ i < e.firstFree + (e.abstracted mode).2.length) := by
  rw [mem_parameters, mem_parameters]
  constructor
  · intro member
    obtain ⟨l, inside, stands⟩ := exists_of_forall₂ (e.stands_abstracted mode).flip member
    rcases stands with ⟨_, rfl⟩ | ⟨atom, index, _, found, same⟩
    · exact .inl inside
    · cases same
      obtain ⟨bound, _⟩ := List.getElem?_eq_some_iff.mp found
      exact .inr ⟨Nat.le_add_right _ _, Nat.add_lt_add_left bound _⟩
  · rintro (member | ⟨new, bound⟩)
    · obtain ⟨m, inside, stands⟩ := exists_of_forall₂ (e.stands_abstracted mode) member
      rcases stands with ⟨_, rfl⟩ | ⟨_, _, replaced, _, _⟩
      · exact inside
      · cases replaced
    · obtain ⟨index, rfl⟩ := Nat.exists_eq_add_of_le new
      have numbered : Leaf.param (e.firstFree + index) ∈ (mode.number e.firstFree e.leaves []).1 :=
        Abstraction.param_mem_number (Nat.zero_le index)
          (by rw [number_abstracted]; exact Nat.lt_of_add_lt_add_left bound)
      rwa [number_abstracted] at numbered

theorem mem_parameters_of_numberless {e : Expr} (noParameters : e.parameters = []) (mode : Abstraction)
    (i : Nat) : i ∈ (e.abstracted mode).1.parameters ↔ i < (e.abstracted mode).2.length := by
  rw [mem_parameters_abstracted, noParameters, firstFree_eq_zero noParameters, Nat.zero_add]
  simp only [List.not_mem_nil, Nat.zero_le, true_and, false_or]

theorem filled_stands {first : Nat} {atoms arguments : List Atom} {l m : Leaf}
    (stands : mode.Stands first atoms l m) (length : arguments.length = first)
    (known : ∀ i, l = .param i → i < first) :
    Leaf.filled (arguments ++ atoms) m = Leaf.filled arguments l := by
  rcases stands with ⟨_, rfl⟩ | ⟨atom, index, replaced, found, rfl⟩
  · apply Leaf.filled_append
    rwa [length]
  · have place : (arguments ++ atoms)[first + index]? = some atom := by
      rw [← length, List.getElem?_append_right (Nat.le_add_right _ _), Nat.add_sub_cancel_left, found]
    rw [Leaf.filled_param place, Abstraction.eq_leaf_of_atom? replaced, Leaf.filled_other]
    rintro i same
    cases atom <;> cases same

/-- The arguments that fill an expression also fill its abstraction, once the atoms that its new
    parameters stand for come behind them. -/
theorem filled_abstracted {e : Expr} (arguments : List Atom) (mode : Abstraction)
    (length : arguments.length = e.firstFree) :
    (e.abstracted mode).1.mapLeaves (Leaf.filled (arguments ++ (e.abstracted mode).2)) =
      e.mapLeaves (Leaf.filled arguments) := by
  apply eq_of_skeleton
  · rw [skeleton_mapLeaves, skeleton_mapLeaves, skeleton_abstracted]
  · rw [leaves_mapLeaves, leaves_mapLeaves, ← List.forall₂_eq_eq_eq, List.forall₂_map_left_iff,
      List.forall₂_map_right_iff]
    have stands := (List.forall₂_and_left e.leaves _).mpr
      ⟨fun l member => member, e.stands_abstracted mode⟩
    refine stands.flip.imp ?_
    rintro m l ⟨member, stands⟩
    refine filled_stands stands length ?_
    rintro i rfl
    exact lt_firstFree (mem_parameters.mpr member)

theorem filled_numberless {e : Expr} (noParameters : e.parameters = []) (arguments : List Atom) :
    e.mapLeaves (Leaf.filled arguments) = e := by
  apply mapLeaves_of_fixed
  intro l member
  apply Leaf.filled_other
  rintro i rfl
  have used := mem_parameters.mpr member
  rw [noParameters] at used
  contradiction

theorem instantiate_behind {e : Expr} (arguments : List Atom) (mode : Abstraction)
    (length : arguments.length = e.firstFree) :
    (e.abstracted mode).1.instantiate (arguments ++ (e.abstracted mode).2) =
      .ok (e.mapLeaves (Leaf.filled arguments)) := by
  rw [instantiate_of_lt, filled_abstracted arguments mode length]
  intro i used
  rw [List.length_append, length]
  rcases mem_parameters_abstracted.mp used with old | ⟨_, bound⟩
  · exact Nat.lt_add_right _ (lt_firstFree old)
  · exact bound

theorem instantiate_replaced {e : Expr} (noParameters : e.parameters = []) (mode : Abstraction) :
    (e.abstracted mode).1.instantiate (e.abstracted mode).2 = .ok e := by
  have behind := instantiate_behind [] mode (firstFree_eq_zero noParameters).symm
  rwa [List.nil_append, filled_numberless noParameters] at behind

/-- The atoms that new parameters stand for undo an abstraction, whatever the parameters that the
    expression already had are given. -/
theorem instantiate_abstracted (e : Expr) (mode : Abstraction) :
    (∀ arguments : List Atom, arguments.length = e.firstFree →
        ∃ s, (e.abstracted mode).1.instantiate (arguments ++ (e.abstracted mode).2) = .ok s ∧
          e.instantiate arguments = .ok s) ∧
      (e.parameters = [] → (e.abstracted mode).1.instantiate (e.abstracted mode).2 = .ok e) := by
  constructor
  · intro arguments length
    refine ⟨_, instantiate_behind arguments mode length, instantiate_of_lt ?_⟩
    intro i used
    rw [length]
    exact lt_firstFree used
  · intro noParameters
    exact instantiate_replaced noParameters mode

def tripled : Expr := .node .mul [.leaf (.const 3), .leaf (.var ⟨4, "x"⟩)]

/-- A sum with a parameter, in which a variable stands twice. -/
def partlyAbstracted : Expr := .node .add [.leaf (.param 1), .leaf (.var ⟨4, "x"⟩), tripled]

theorem instantiate_abstracted_partlyAbstracted :
    [Atom.const 7, .const 9].length = partlyAbstracted.firstFree ∧
      (partlyAbstracted.abstracted ⟨true, true⟩).2 = [.var ⟨4, "x"⟩, .const 3] ∧
      (∃ s, (partlyAbstracted.abstracted ⟨true, true⟩).1.instantiate
          ([.const 7, .const 9] ++ [.var ⟨4, "x"⟩, .const 3]) = .ok s ∧
        partlyAbstracted.instantiate [.const 7, .const 9] = .ok s) ∧
      tripled.parameters = [] ∧
      (tripled.abstracted ⟨true, false⟩).1.instantiate (tripled.abstracted ⟨true, false⟩).2 =
        .ok tripled :=
  ⟨rfl, rfl, (instantiate_abstracted partlyAbstracted ⟨true, true⟩).1 [.const 7, .const 9] rfl, rfl,
    (instantiate_abstracted tripled ⟨true, false⟩).2 rfl⟩

end Expr

end Intension
