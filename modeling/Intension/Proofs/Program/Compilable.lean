import Mathlib.Data.Finset.Card
import Intension.Proofs.Expr.Rewritten
import Intension.Proofs.Program.Evaluation

namespace Intension

namespace Expr

/-- A membership test is against a set. -/
def TestsSet (op : Operator) (args : List Expr) : Prop :=
  op = .mem ∨ op = .notMem → ∃ members, args[1]? = some (.node .set members)

/-- Among operands, sets that have members are only what a membership test is against. -/
def PlacesSets (op : Operator) (args : List Expr) : Prop :=
  ∀ (position : Nat) members, args[position]? = some (.node .set members) → members ≠ [] →
    (op = .mem ∨ op = .notMem) ∧ position = 1

theorem WellFormed.no_members {members : List Expr} (valid : WellFormed (.node .set members)) :
    members = [] := by
  cases valid with
  | noMembers => rfl
  | test membership first rest => rcases membership with same | same <;> cases same
  | operator plain arity each => exact absurd rfl plain.1

theorem placesSets_of_wellFormed {op : Operator} {args : List Expr}
    (each : ∀ arg ∈ args, arg.WellFormed) : PlacesSets op args := by
  intro position members found inhabited
  exact absurd (each _ (List.mem_of_getElem? found)).no_members inhabited

theorem WellFormed.testsSets {e : Expr} (valid : e.WellFormed) : e.Everywhere TestsSet := by
  induction valid with
  | leaf concrete => exact .leaf _
  | noMembers => exact .node nofun (by simp)
  | test membership first rest ihFirst ihRest =>
    rename_i op tested members
    have set : Everywhere TestsSet (.node .set members) := .node nofun ihRest
    exact .node (fun _ => ⟨members, rfl⟩) (by simp [ihFirst, set])
  | operator plain arity each ih =>
    obtain ⟨_, notMem, notNotMem⟩ := plain
    refine .node ?_ ih
    rintro (same | same)
    · exact absurd same notMem
    · exact absurd same notNotMem

theorem WellFormed.placesSets {e : Expr} (valid : e.WellFormed) : e.Everywhere PlacesSets := by
  induction valid with
  | leaf concrete => exact .leaf _
  | noMembers => exact .node (placesSets_of_wellFormed (by simp)) (by simp)
  | test membership first rest ihFirst ihRest =>
    rename_i op tested members
    have set : Everywhere PlacesSets (.node .set members) :=
      .node (placesSets_of_wellFormed rest) ihRest
    refine .node ?_ (by simp [ihFirst, set])
    rintro (_ | _ | position) inner found inhabited
    · cases found
      exact absurd first.no_members inhabited
    · exact ⟨membership, rfl⟩
    · cases found
  | operator plain arity each ih => exact .node (placesSets_of_wellFormed each) ih

/-- The second part is for the members of a set behind a tested value, which is not well formed by
    itself. -/
theorem wellFormed_of_places {e : Expr} (sized : e.Sized) (concrete : ∀ w, .wild w ∉ e.leaves)
    (tests : e.Everywhere TestsSet) (places : e.Everywhere PlacesSets) :
    ((∀ members, e = .node .set members → members = []) → e.WellFormed) ∧
      ∀ members, e = .node .set members → ∀ member ∈ members, member.WellFormed := by
  induction e using Expr.induction with
  | leaf l =>
    refine ⟨fun _ => .leaf ?_, nofun⟩
    rintro w rfl
    exact concrete w (List.mem_singleton.mpr rfl)
  | node op args ih =>
    obtain ⟨arity, sized⟩ := sized_node.mp sized
    obtain ⟨test, tests⟩ := everywhere_node.mp tests
    obtain ⟨place, places⟩ := everywhere_node.mp places
    have below : ∀ arg ∈ args, _ := fun arg member => ih arg member (sized arg member)
      (fun w inside => concrete w (mem_leaves_node.mpr ⟨arg, member, inside⟩))
      (tests arg member) (places arg member)
    -- An operand that no membership test puts behind its tested value is well formed.
    have operand (position : Nat) (arg : Expr) (found : args[position]? = some arg)
        (other : ¬ ((op = .mem ∨ op = .notMem) ∧ position = 1)) : arg.WellFormed := by
      refine (below arg (List.mem_of_getElem? found)).1 ?_
      rintro members rfl
      by_contra inhabited
      exact other (place position members found inhabited)
    constructor
    · intro root
      by_cases set : op = .set
      · subst set
        rw [root args rfl]
        exact .noMembers
      · by_cases membership : op = .mem ∨ op = .notMem
        · obtain ⟨members, second⟩ := test membership
          have two : args.length = 2 := by
            rcases membership with rfl | rfl <;> exact of_decide_eq_true arity
          obtain ⟨tested, behind, rfl⟩ := List.length_eq_two.mp two
          cases second
          exact .test membership (operand 0 tested rfl (by simp))
            ((below (.node .set members) (by simp)).2 members rfl)
        · refine .operator ⟨set, fun same => membership (.inl same), fun same => membership (.inr same)⟩
            arity ?_
          intro arg member
          obtain ⟨position, found⟩ := List.getElem?_of_mem member
          exact operand position arg found (fun both => membership both.1)
    · intro members same member inside
      cases same
      obtain ⟨position, found⟩ := List.getElem?_of_mem inside
      exact operand position member found (by simp)

/-- The expressions that have a program when no two of their variables share an identifier. -/
structure Compilable (e : Expr) : Prop where
  sized : e.Sized
  concrete : ∀ w, .wild w ∉ e.leaves
  unmixed : e.occurrences = [] ∨ e.parameters = []
  dense : ∃ k, ∀ i, i ∈ e.parameters ↔ i < k
  tests : e.Everywhere TestsSet
  root : ∀ members, e = .node .set members → members = []
  places : e.Everywhere PlacesSets

theorem wellFormed_iff {e : Expr} :
    e.WellFormed ↔ e.Sized ∧ (∀ w, .wild w ∉ e.leaves) ∧ e.Everywhere TestsSet ∧
      (∀ members, e = .node .set members → members = []) ∧ e.Everywhere PlacesSets := by
  constructor
  · intro valid
    exact ⟨valid.sized, valid.concrete, valid.testsSets,
      fun members same => (same ▸ valid).no_members, valid.placesSets⟩
  · rintro ⟨sized, concrete, tests, root, places⟩
    exact (wellFormed_of_places sized concrete tests places).1 root

theorem mem_scope_of_named {e : Expr}
    (named : ∀ v ∈ e.occurrences, ∀ w ∈ e.occurrences, v.id = w.id → v = w) :
    ∀ v ∈ e.occurrences, v ∈ e.scope := by
  intro v occurs
  obtain ⟨w, found, same⟩ := exists_mem_distinctBy Variable.id occurs
  rw [← named w (mem_occurrences_of_mem_scope found) v occurs same]
  exact found

theorem card_occurrences {e : Expr} (inScope : ∀ v ∈ e.occurrences, v ∈ e.scope) :
    e.occurrences.toFinset.card = e.scope.length := by
  have same : e.occurrences.toFinset = e.scope.toFinset := by
    ext v
    rw [List.mem_toFinset, List.mem_toFinset]
    exact ⟨inScope v, mem_occurrences_of_mem_scope⟩
  rw [same, List.toFinset_card_of_nodup e.nodup_scope]

theorem exists_slots_iff {e : Expr}
    (named : ∀ v ∈ e.occurrences, ∀ w ∈ e.occurrences, v.id = w.id → v = w) :
    (∃ n, e.Slots n) ↔
      (e.occurrences = [] ∨ e.parameters = []) ∧ ∃ k, ∀ i, i ∈ e.parameters ↔ i < k := by
  constructor
  · rintro ⟨n, ⟨none, _⟩ | ⟨none, dense⟩⟩
    · exact ⟨.inr none, 0, by simp [none]⟩
    · exact ⟨.inl none, n, dense⟩
  · rintro ⟨unmixed, k, dense⟩
    rcases unmixed with none | none
    · exact ⟨k, .inr ⟨none, dense⟩⟩
    · exact ⟨e.scope.length, .inl ⟨none, mem_scope_of_named named, rfl⟩⟩

theorem Slots.arity {e : Expr} {n : Nat} (slots : e.Slots n) :
    (e.parameters = [] → n = e.occurrences.toFinset.card) ∧
      (e.occurrences = [] → ∀ i, i ∈ e.parameters ↔ i < n) := by
  rcases slots with ⟨noParameters, inScope, rfl⟩ | ⟨noVariables, dense⟩
  · refine ⟨fun _ => (card_occurrences inScope).symm, ?_⟩
    intro noVariables
    simp [noParameters, scope_eq_nil_iff.mpr noVariables]
  · refine ⟨?_, fun _ => dense⟩
    intro noParameters
    have zero := dense 0
    simp only [noParameters, List.not_mem_nil, false_iff] at zero
    rw [noVariables, List.toFinset_nil, Finset.card_empty]
    omega

end Expr

namespace Program

/-- The expressions that have a program, without reference to streams. Two variables that share an
    identifier cannot both have a slot, and such expressions are left out here. -/
theorem exists_ofExpr_iff {e : Expr}
    (named : ∀ v ∈ e.occurrences, ∀ w ∈ e.occurrences, v.id = w.id → v = w) (shortCircuit : Bool) :
    ((∃ p, ofExpr e shortCircuit = .ok p) ↔ e.Compilable) ∧
      ∀ p, ofExpr e shortCircuit = .ok p → p.scope = e.scope ∧
        (e.parameters = [] → p.arity = e.occurrences.toFinset.card) ∧
        (e.occurrences = [] → ∀ i, i ∈ e.parameters ↔ i < p.arity) := by
  constructor
  · constructor
    · rintro ⟨p, accepted⟩
      obtain ⟨valid, n, slots, _⟩ := (ofExpr_eq_ok_iff e shortCircuit p).mp accepted
      obtain ⟨sized, concrete, tests, root, places⟩ := Expr.wellFormed_iff.mp valid
      obtain ⟨unmixed, dense⟩ := (Expr.exists_slots_iff named).mp ⟨n, slots⟩
      exact ⟨sized, concrete, unmixed, dense, tests, root, places⟩
    · rintro ⟨sized, concrete, unmixed, dense, tests, root, places⟩
      have valid := Expr.wellFormed_iff.mpr ⟨sized, concrete, tests, root, places⟩
      obtain ⟨n, slots⟩ := (Expr.exists_slots_iff named).mpr ⟨unmixed, dense⟩
      exact ⟨_, (ofExpr_eq_ok_iff e shortCircuit _).mpr ⟨valid, n, slots, rfl⟩⟩
  · intro p accepted
    obtain ⟨_, n, slots, rfl⟩ := (ofExpr_eq_ok_iff e shortCircuit p).mp accepted
    exact ⟨rfl, slots.arity⟩

/-- A set that is an operand of a sum. -/
def summedSet : Expr :=
  .node .add [.node .set [.leaf (.const 1)], .leaf (.var ⟨4, "x"⟩)]

theorem exists_ofExpr_guardedQuotient :
    (∀ v ∈ Context.guardedQuotient.occurrences, ∀ w ∈ Context.guardedQuotient.occurrences,
        v.id = w.id → v = w) ∧
      Context.guardedQuotient.Compilable ∧
      (∃ p, ofExpr Context.guardedQuotient true = .ok p ∧ p.arity = 3) ∧ ¬ summedSet.Compilable := by
  have named : ∀ v ∈ Context.guardedQuotient.occurrences,
      ∀ w ∈ Context.guardedQuotient.occurrences, v.id = w.id → v = w := by decide
  obtain ⟨accepts, agrees⟩ := exists_ofExpr_iff named true
  refine ⟨named, accepts.mp ⟨_, rfl⟩, ⟨_, rfl, (agrees _ rfl).2.1 rfl⟩, ?_⟩
  intro compilable
  obtain ⟨p, accepted⟩ := (exists_ofExpr_iff (e := summedSet) (by decide) true).1.mpr compilable
  cases accepted

end Program

end Intension
