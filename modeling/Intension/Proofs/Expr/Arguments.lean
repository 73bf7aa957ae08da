import Intension.Proofs.Expr.Instance

namespace Intension

/-- What stands in an instance for a leaf. -/
inductive Leaf.Given (arguments : List Atom) : Leaf → Leaf → Prop
  | argument {i : Nat} {atom : Atom} (found : arguments[i]? = some atom) :
      Given arguments (.param i) atom.leaf
  | kept {l : Leaf} (other : ∀ i, l ≠ .param i) : Given arguments l l

theorem Leaf.given_filled {arguments : List Atom} {l : Leaf}
    (enough : ∀ i, l = .param i → i < arguments.length) : l.Given arguments (l.filled arguments) := by
  by_cases parameter : ∃ i, l = .param i
  · obtain ⟨i, rfl⟩ := parameter
    have found := List.getElem?_eq_getElem (enough i rfl)
    rw [filled_param found]
    exact .argument found
  · have other : ∀ i, l ≠ .param i := fun i same => parameter ⟨i, same⟩
    rw [filled_other other]
    exact .kept other

theorem Leaf.Given.ne_param {arguments : List Atom} {l m : Leaf} (given : l.Given arguments m) (i : Nat) :
    m ≠ .param i := by
  cases given with
  | @argument _ atom found => cases atom <;> rintro ⟨⟩
  | kept other => exact other i

namespace Expr

variable {arguments : List Atom} {e : Expr}

theorem unfilled?_eq_some_iff {given i : Nat} {ls : List Leaf} :
    unfilled? given ls = some i ↔
      ∃ before after, ls.filterMap Leaf.param? = before ++ i :: after ∧ (∀ j ∈ before, j < given) ∧
        given ≤ i := by
  rw [unfilled?, List.find?_eq_some_iff_append]
  simp only [decide_eq_true_eq, Bool.not_eq_true', decide_eq_false_iff_not, Nat.not_le]
  constructor
  · rintro ⟨missing, before, after, split, filled⟩
    exact ⟨before, after, split, filled, missing⟩
  · rintro ⟨before, after, split, filled, missing⟩
    exact ⟨missing, before, after, split, filled⟩

theorem instantiate_eq_ok_iff {s : Expr} :
    e.instantiate arguments = .ok s ↔
      (∀ i ∈ e.parameters, i < arguments.length) ∧ s = e.mapLeaves (Leaf.filled arguments) := by
  rw [instantiate_eq, parameters, ← unfilled?_eq_none_iff]
  cases unfilled? arguments.length e.leaves with
  | some i => simp
  | none => simp [eq_comm]

theorem instantiate_eq_error_iff {error : ExprError} :
    e.instantiate arguments = .error error ↔
      ∃ i, unfilled? arguments.length e.leaves = some i ∧
        error = .missingArgument i arguments.length := by
  rw [instantiate_eq]
  cases unfilled? arguments.length e.leaves with
  | some i => simp [eq_comm]
  | none => simp

/-- An expression has an instance when its parameters are within the arguments, and otherwise the
    leftmost parameter beyond them is reported. In the instance there are no parameters, and nothing
    else is changed. -/
theorem instantiate_precise (arguments : List Atom) (e : Expr) :
    ((∃ s, e.instantiate arguments = .ok s) ↔ ∀ i ∈ e.parameters, i < arguments.length) ∧
      (∀ error, e.instantiate arguments = .error error ↔
        ∃ before i after, e.parameters = before ++ i :: after ∧ (∀ j ∈ before, j < arguments.length) ∧
          arguments.length ≤ i ∧ error = .missingArgument i arguments.length) ∧
      ∀ s, e.instantiate arguments = .ok s →
        s.parameters = [] ∧ s.skeleton = e.skeleton ∧
          List.Forall₂ (Leaf.Given arguments) e.leaves s.leaves := by
  refine ⟨?_, ?_, ?_⟩
  · simp only [instantiate_eq_ok_iff, exists_and_left, exists_eq, and_true]
  · intro error
    simp only [instantiate_eq_error_iff, unfilled?_eq_some_iff]
    constructor
    · rintro ⟨i, ⟨before, after, split, filled, missing⟩, reported⟩
      exact ⟨before, i, after, split, filled, missing, reported⟩
    · rintro ⟨before, i, after, split, filled, missing, reported⟩
      exact ⟨i, ⟨before, after, split, filled, missing⟩, reported⟩
  · intro s found
    obtain ⟨enough, rfl⟩ := instantiate_eq_ok_iff.mp found
    have given : List.Forall₂ (Leaf.Given arguments) e.leaves (e.mapLeaves (Leaf.filled arguments)).leaves := by
      rw [leaves_mapLeaves, List.forall₂_map_right_iff, List.forall₂_same]
      rintro l member
      apply Leaf.given_filled
      rintro i rfl
      exact enough i (mem_parameters.mpr member)
    refine ⟨?_, skeleton_mapLeaves _ e, given⟩
    rw [List.eq_nil_iff_forall_not_mem]
    intro i used
    obtain ⟨l, _, source⟩ := exists_of_forall₂ given.flip (mem_parameters.mp used)
    exact source.ne_param i rfl

/-- A product whose second parameter is the first that lies beyond one argument. -/
def scaled : Expr :=
  .node .mul [.leaf (.param 0), .node .add [.leaf (.var ⟨4, "x"⟩), .leaf (.param 2)], .leaf (.param 1)]

theorem instantiate_precise_scaled :
    scaled.instantiate [.const 7] = .error (.missingArgument 2 1) ∧
      ∃ s, scaled.instantiate [.const 7, .var ⟨4, "x"⟩, .const (-1)] = .ok s ∧ s.parameters = [] ∧
        s.skeleton = scaled.skeleton ∧
        List.Forall₂ (Leaf.Given [.const 7, .var ⟨4, "x"⟩, .const (-1)]) scaled.leaves s.leaves :=
  ⟨((instantiate_precise [.const 7] scaled).2.1 _).mpr ⟨[0], 2, [1], rfl, by decide, by decide, rfl⟩,
    _, rfl, (instantiate_precise [.const 7, .var ⟨4, "x"⟩, .const (-1)] scaled).2.2 _ rfl⟩

end Expr

end Intension
