import Intension.Proofs.Expr.Instance
import Intension.Proofs.Program.Canonical
import Intension.Proofs.Program.Compilable

namespace Intension

namespace Expr

section Filled

variable {e : Expr} (noParameters : e.parameters = []) (concrete : ∀ w, .wild w ∉ e.leaves)

include noParameters concrete

theorem leaf_of_abstracted {mode : Abstraction} {m : Leaf}
    (member : m ∈ (e.abstracted mode).1.leaves) :
    (∃ i, m = .param i ∧ i < (e.abstracted mode).2.length) ∨ ∃ k, m = .const k := by
  cases m with
  | var v => exact absurd (atom?_of_mem_abstracted member) nofun
  | const k => exact .inr ⟨k, rfl⟩
  | param i =>
    exact .inl ⟨i, rfl, (mem_parameters_of_numberless noParameters mode i).mp (mem_parameters.mpr member)⟩
  | wild w =>
    obtain ⟨l, inside, stands⟩ := exists_of_forall₂ (e.stands_abstracted mode).flip member
    rcases stands with ⟨_, rfl⟩ | ⟨_, _, _, _, same⟩
    · exact absurd inside (concrete w)
    · cases same

variable {mode : Abstraction} {atoms : List Atom} (length : atoms.length = (e.abstracted mode).2.length)

include length

theorem leaf_of_filled {m : Leaf}
    (member : m ∈ ((e.abstracted mode).1.mapLeaves (Leaf.filled atoms)).leaves) :
    (∃ atom ∈ atoms, m = atom.leaf) ∨ ∃ k, m = .const k := by
  rw [leaves_mapLeaves] at member
  obtain ⟨l, inside, rfl⟩ := List.mem_map.mp member
  rcases leaf_of_abstracted noParameters concrete inside with ⟨i, rfl, bound⟩ | ⟨k, rfl⟩
  · rw [← length] at bound
    exact .inl ⟨atoms[i], List.getElem_mem bound, Leaf.filled_param (List.getElem?_eq_getElem bound)⟩
  · exact .inr ⟨k, rfl⟩

theorem parameters_filled : ((e.abstracted mode).1.mapLeaves (Leaf.filled atoms)).parameters = [] := by
  apply List.eq_nil_iff_forall_not_mem.mpr
  intro i used
  rcases leaf_of_filled noParameters concrete length (mem_parameters.mp used) with
    ⟨atom, _, same⟩ | ⟨k, same⟩
  · cases atom <;> cases same
  · cases same

theorem mem_of_mem_occurrences_filled {v : Variable}
    (occurs : v ∈ ((e.abstracted mode).1.mapLeaves (Leaf.filled atoms)).occurrences) :
    .var v ∈ atoms := by
  rcases leaf_of_filled noParameters concrete length (mem_occurrences.mp occurs) with
    ⟨atom, member, same⟩ | ⟨k, same⟩
  · cases atom <;> cases same
    exact member
  · cases same

theorem assigned_filled (values : Nat → Word) (scope : List Variable) {l : Leaf}
    (member : l ∈ (e.abstracted mode).1.leaves) :
    Leaf.assigned values (Leaf.filled atoms l) =
      Leaf.read scope (atoms.map fun atom => Leaf.assigned values atom.leaf) l := by
  rcases leaf_of_abstracted noParameters concrete member with ⟨i, rfl, bound⟩ | ⟨k, rfl⟩
  · rw [← length] at bound
    have found := List.getElem?_eq_getElem bound
    rw [Leaf.filled_param found, Leaf.read, List.getD_eq_getElem?_getD, List.getElem?_map, found]
    rfl
  · rfl

end Filled

theorem slots_abstracted {e : Expr} (noParameters : e.parameters = []) (mode : Abstraction) :
    (e.abstracted mode).1.Slots (e.abstracted mode).2.length := by
  refine .inr ⟨?_, mem_parameters_of_numberless noParameters mode⟩
  apply List.eq_nil_iff_forall_not_mem.mpr
  intro v occurs
  exact absurd (atom?_of_mem_abstracted (mem_occurrences.mp occurs)) nofun

theorem WellFormed.abstracted {e : Expr} (valid : e.WellFormed) (noParameters : e.parameters = [])
    (mode : Abstraction) : (e.abstracted mode).1.WellFormed := by
  refine valid.of_skeleton (e.skeleton_abstracted mode) ?_
  intro w member
  rcases leaf_of_abstracted noParameters valid.concrete member with ⟨_, same, _⟩ | ⟨_, same⟩ <;>
    cases same

theorem WellFormed.filled {e : Expr} (valid : e.WellFormed) (noParameters : e.parameters = [])
    {mode : Abstraction} {atoms : List Atom} (length : atoms.length = (e.abstracted mode).2.length) :
    ((e.abstracted mode).1.mapLeaves (Leaf.filled atoms)).WellFormed := by
  refine (valid.abstracted noParameters mode).of_skeleton (skeleton_mapLeaves _ _) ?_
  intro w member
  rcases leaf_of_filled noParameters valid.concrete length member with ⟨atom, _, same⟩ | ⟨_, same⟩
  · cases atom <;> cases same
  · cases same

end Expr

namespace Program

theorem tuple_of_scope (e : Expr) (shortCircuit : Bool) (values : Nat → Word) :
    (ofSlots e e.scope.length shortCircuit).tuple values = e.scope.map (fun v => values v.id) := by
  by_cases unnamed : e.scope = []
  · rw [tuple_of_unnamed unnamed, unnamed]
    rfl
  · exact tuple_of_named unnamed _ shortCircuit values

/-- The program of an abstraction does what the programs of all its instances do. -/
theorem evaluate_instance {e : Expr} {p : Program} {shortCircuit : Bool}
    (noParameters : e.parameters = []) (accepted : ofExpr e shortCircuit = .ok p) (mode : Abstraction) :
    (e.abstracted mode).1.instantiate (e.abstracted mode).2 = .ok e ∧
      ∃ q, ofExpr (e.abstracted mode).1 shortCircuit = .ok q ∧
        q.arity = (e.abstracted mode).2.length ∧
        ∀ atoms : List Atom, atoms.length = (e.abstracted mode).2.length →
          (∀ v w : Variable, .var v ∈ atoms → .var w ∈ atoms → v.id = w.id → v = w) →
          ∃ s r, (e.abstracted mode).1.instantiate atoms = .ok s ∧ ofExpr s shortCircuit = .ok r ∧
            ∀ values : Nat → Word, r.evaluate (r.scope.map fun v => values v.id) =
              q.evaluate (atoms.map fun atom => Leaf.assigned values atom.leaf) := by
  obtain ⟨valid, _⟩ := (ofExpr_eq_ok_iff e shortCircuit p).mp accepted
  have general := (ofExpr_eq_ok_iff (e.abstracted mode).1 shortCircuit _).mpr
    ⟨valid.abstracted noParameters mode, _, Expr.slots_abstracted noParameters mode, rfl⟩
  refine ⟨Expr.instantiate_replaced noParameters mode, _, general, rfl, ?_⟩
  intro atoms length named
  have numberless := Expr.parameters_filled noParameters valid.concrete length
  have inScope := Expr.mem_scope_of_named (fun v first w second =>
    named v w (Expr.mem_of_mem_occurrences_filled noParameters valid.concrete length first)
      (Expr.mem_of_mem_occurrences_filled noParameters valid.concrete length second))
  have special := (ofExpr_eq_ok_iff _ shortCircuit _).mpr
    ⟨valid.filled noParameters length, _, .inl ⟨numberless, inScope, rfl⟩, rfl⟩
  refine ⟨_, _, Expr.instantiate_of_lt ?_, special, ?_⟩
  · intro i used
    rw [length]
    exact (Expr.mem_parameters_of_numberless noParameters mode i).mp used
  · intro values
    have whole := evaluate_tuple special values
    rw [tuple_of_scope] at whole
    have input : (atoms.map fun atom => Leaf.assigned values atom.leaf).length =
        (e.abstracted mode).2.length := by rw [List.length_map, length]
    have parts := Context.run_ofExpr general input .empty
    refine whole.trans (Eq.trans ?_ parts.symm)
    rw [Expr.value_mapLeaves (valid.abstracted noParameters mode)]
    exact Expr.value_congr (valid.abstracted noParameters mode)
      (fun l member => Expr.assigned_filled noParameters valid.concrete length values _ member)

/-- Atoms for the abstraction of `Context.guardedQuotient`, in which a divisor is also the dividend. -/
def selfQuotient : List Atom :=
  [.var ⟨3, "a"⟩, .const 0, .var ⟨5, "b"⟩, .const 5, .var ⟨3, "a"⟩, .const 1]

theorem evaluate_instance_guardedQuotient :
    Context.guardedQuotient.parameters = [] ∧
      selfQuotient.length = (Context.guardedQuotient.abstracted ⟨true, true⟩).2.length ∧
      (∀ v w : Variable, .var v ∈ selfQuotient → .var w ∈ selfQuotient → v.id = w.id → v = w) ∧
      ∃ q s r, ofExpr (Context.guardedQuotient.abstracted ⟨true, true⟩).1 true = .ok q ∧ q.arity = 6 ∧
        (Context.guardedQuotient.abstracted ⟨true, true⟩).1.instantiate selfQuotient = .ok s ∧
        ofExpr s true = .ok r ∧
        r.evaluate (r.scope.map fun v => Int64.ofNat v.id) =
          q.evaluate (selfQuotient.map fun atom => Leaf.assigned Int64.ofNat atom.leaf) ∧
        q.evaluate (selfQuotient.map fun atom => Leaf.assigned Int64.ofNat atom.leaf) = .ok 1 := by
  have accepted : ofExpr Context.guardedQuotient true = .ok _ := rfl
  have named : ∀ v w : Variable, .var v ∈ selfQuotient → .var w ∈ selfQuotient →
      v.id = w.id → v = w := by
    intro v w first second same
    simp only [selfQuotient, List.mem_cons, List.not_mem_nil, Atom.var.injEq, reduceCtorEq, or_false,
      false_or] at first second
    rcases first with rfl | rfl | rfl <;> rcases second with rfl | rfl | rfl <;>
      first | rfl | cases same
  obtain ⟨_, q, general, arity, instances⟩ := evaluate_instance rfl accepted ⟨true, true⟩
  obtain ⟨s, r, filled, special, agree⟩ := instances selfQuotient rfl named
  refine ⟨rfl, rfl, named, q, s, r, general, arity, filled, special, agree Int64.ofNat, ?_⟩
  cases general
  rfl

end Program

end Intension
