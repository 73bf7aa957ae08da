import Intension.Proofs.Expr.Exact
import Intension.Proofs.Expr.Order
import Intension.Proofs.Program.Evaluation

namespace Intension

/-- The word of a leaf, from values by the identifier of a variable or the number of a parameter. -/
def Leaf.assigned (values : Nat → Word) : Leaf → Word
  | .var v => values v.id
  | .const k => k
  | .param i => values i
  | .wild _ => 0

namespace Expr

theorem valueList_congr {shortCircuit : Bool} {read other : Leaf → Word} {es : List Expr}
    (each : ∀ e ∈ es, e.value shortCircuit read = e.value shortCircuit other) :
    valueList shortCircuit read es = valueList shortCircuit other es := by
  induction es with
  | nil => rw [valueList_nil, valueList_nil]
  | cons e es ih =>
    rw [valueList_cons, valueList_cons, each e (by simp),
      ih (fun other member => each other (List.mem_cons_of_mem _ member))]

theorem value_congr {shortCircuit : Bool} {read other : Leaf → Word} {e : Expr} (valid : e.WellFormed)
    (same : ∀ l ∈ e.leaves, read l = other l) :
    e.value shortCircuit read = e.value shortCircuit other := by
  induction valid with
  | leaf concrete =>
    rw [value_leaf, value_leaf, same _ (List.mem_singleton.mpr rfl)]
  | noMembers => rw [value_set, value_set]
  | test membership first rest ihFirst ihRest =>
    rename_i op tested members
    have below : ∀ arg ∈ [tested, .node .set members], ∀ l ∈ arg.leaves, read l = other l :=
      fun arg member l inside => same l (mem_leaves_node.mpr ⟨arg, member, inside⟩)
    have others : ∀ arg ∈ members, ∀ l ∈ arg.leaves, read l = other l :=
      fun arg member l inside =>
        below (.node .set members) (by simp) l (mem_leaves_node.mpr ⟨arg, member, inside⟩)
    rw [value_test _ _ membership, value_test _ _ membership, ihFirst (below _ (by simp)),
      valueList_congr (fun arg member => ihRest arg member (others arg member))]
  | operator plain arity each ih =>
    have below := fun arg member => ih arg member
      (fun l inside => same l (mem_leaves_node.mpr ⟨arg, member, inside⟩))
    obtain ⟨first, others, rfl⟩ := List.exists_cons_of_ne_nil (plain.args_ne_nil arity)
    rw [value_plain _ _ plain, value_plain _ _ plain, below first (by simp),
      valueList_congr (fun arg member => below arg (List.mem_cons_of_mem _ member))]

theorem mem_scope_of_perm {a b : Expr} (perm : a.occurrences.Perm b.occurrences)
    (inScope : ∀ v ∈ a.occurrences, v ∈ a.scope) : ∀ v ∈ b.occurrences, v ∈ b.scope := by
  intro v occurs
  -- The member of the scope under the same identifier is the variable itself.
  obtain ⟨w, found, same⟩ := exists_mem_distinctBy Variable.id occurs
  have other := inScope w (perm.mem_iff.mpr (mem_of_mem_distinctBy found))
  rw [← eq_of_mem_distinctBy other (inScope v (perm.mem_iff.mpr occurs)) same]
  exact found

theorem scope_perm {a b : Expr} (perm : a.occurrences.Perm b.occurrences)
    (inScope : ∀ v ∈ a.occurrences, v ∈ a.scope) : a.scope.Perm b.scope := by
  apply (List.perm_ext_iff_of_nodup a.nodup_scope b.nodup_scope).mpr
  intro v
  constructor
  · intro member
    exact mem_scope_of_perm perm inScope v (perm.mem_iff.mp (mem_occurrences_of_mem_scope member))
  · intro member
    exact inScope v (perm.mem_iff.mpr (mem_occurrences_of_mem_scope member))

theorem Slots.of_perm {a b : Expr} {n : Nat} (slots : a.Slots n)
    (named : a.occurrences.Perm b.occurrences) (numbered : a.parameters.Perm b.parameters) :
    b.Slots n ∧ a.scope.Perm b.scope := by
  rcases slots with ⟨none, inScope, rfl⟩ | ⟨none, dense⟩
  · have perm := scope_perm named inScope
    rw [none] at numbered
    exact ⟨.inl ⟨numbered.nil_eq.symm, mem_scope_of_perm named inScope, perm.length_eq⟩, perm⟩
  · have unnamed := none
    rw [none] at named
    have others := named.nil_eq.symm
    refine ⟨.inr ⟨others, fun i => by rw [← numbered.mem_iff, dense]⟩, ?_⟩
    rw [scope_eq_nil_iff.mpr unnamed, scope_eq_nil_iff.mpr others]

end Expr

namespace Program

/-- The tuple of a program from values by the identifiers of the variables in its scope, or by the
    numbers of its parameters. -/
def tuple (p : Program) (values : Nat → Word) : List Word :=
  if p.scope.isEmpty then (List.range p.arity).map values else p.scope.map (fun v => values v.id)

theorem tuple_of_named {e : Expr} (named : e.scope ≠ []) (n : Nat) (shortCircuit : Bool)
    (values : Nat → Word) :
    (ofSlots e n shortCircuit).tuple values = e.scope.map (fun v => values v.id) :=
  if_neg (mt List.isEmpty_iff.mp named)

theorem tuple_of_unnamed {e : Expr} (unnamed : e.scope = []) (n : Nat) (shortCircuit : Bool)
    (values : Nat → Word) : (ofSlots e n shortCircuit).tuple values = (List.range n).map values :=
  if_pos (List.isEmpty_iff.mpr unnamed)

theorem length_tuple {e : Expr} {p : Program} {shortCircuit : Bool}
    (accepted : ofExpr e shortCircuit = .ok p) (values : Nat → Word) :
    (p.tuple values).length = p.arity := by
  obtain ⟨_, n, slots, rfl⟩ := (ofExpr_eq_ok_iff e shortCircuit p).mp accepted
  by_cases unnamed : e.scope = []
  · rw [tuple_of_unnamed unnamed, List.length_map, List.length_range]
    rfl
  · rcases slots with ⟨_, _, rfl⟩ | ⟨none, _⟩
    · rw [tuple_of_named unnamed, List.length_map]
      rfl
    · exact absurd (Expr.scope_eq_nil_iff.mpr none) unnamed

theorem read_tuple {e : Expr} {p : Program} {shortCircuit : Bool}
    (accepted : ofExpr e shortCircuit = .ok p) (values : Nat → Word) :
    ∀ l ∈ e.leaves, Leaf.read e.scope (p.tuple values) l = Leaf.assigned values l := by
  obtain ⟨_, n, slots, rfl⟩ := (ofExpr_eq_ok_iff e shortCircuit p).mp accepted
  intro l member
  cases l with
  | var v =>
    have occurs := Expr.mem_occurrences.mpr member
    rcases slots with ⟨_, inScope, rfl⟩ | ⟨none, _⟩
    · have inside := inScope v occurs
      have slot := List.idxOf_lt_length_of_mem inside
      rw [tuple_of_named (List.ne_nil_of_mem inside), Leaf.read, List.getD_eq_getElem?_getD,
        List.getElem?_map, List.getElem?_eq_getElem slot, List.getElem_idxOf]
      rfl
    · rw [none] at occurs
      contradiction
  | const k => rfl
  | param i =>
    have used := Expr.mem_parameters.mpr member
    rcases slots with ⟨none, _⟩ | ⟨none, dense⟩
    · rw [none] at used
      contradiction
    · rw [tuple_of_unnamed (Expr.scope_eq_nil_iff.mpr none), Leaf.read, List.getD_eq_getElem?_getD,
        List.getElem?_map, List.getElem?_range ((dense i).mp used)]
      rfl
  | wild w => rfl

theorem evaluate_tuple {e : Expr} {p : Program} {shortCircuit : Bool}
    (accepted : ofExpr e shortCircuit = .ok p) (values : Nat → Word) :
    p.evaluate (p.tuple values) = e.value shortCircuit (Leaf.assigned values) := by
  have valid := ((ofExpr_eq_ok_iff e shortCircuit p).mp accepted).1
  rw [evaluate, Context.run_ofExpr accepted (length_tuple accepted values)]
  exact Expr.value_congr valid (read_tuple accepted values)

theorem ofExpr_canonical {e : Expr} {p : Program} {shortCircuit : Bool}
    (accepted : ofExpr e shortCircuit = .ok p) (other : Bool) :
    ∃ q, ofExpr e.canonical other = .ok q ∧ q.arity = p.arity ∧ p.scope.Perm q.scope := by
  obtain ⟨valid, n, slots, rfl⟩ := (ofExpr_eq_ok_iff e shortCircuit p).mp accepted
  have rewrites := Expr.rewrites_canonical valid.sized
  obtain ⟨canonical, perm⟩ := slots.of_perm (rewrites.filterMap_leaves (f := Leaf.var?) (fun _ => rfl))
    (rewrites.filterMap_leaves (f := Leaf.param?) (fun _ => rfl))
  have compiled := (ofExpr_eq_ok_iff e.canonical other _).mpr
    ⟨rewrites.wellFormed valid, n, canonical, rfl⟩
  exact ⟨_, compiled, rfl, perm⟩

/-- Where neither overflows, an expression and its canonical form have the same value, or neither has
    one. -/
theorem evaluate_canonical {e : Expr} {p : Program} {shortCircuit : Bool}
    (accepted : ofExpr e shortCircuit = .ok p) (guarded : e.BooleanNegations) :
    ∃ linear canonical, ofExpr e false = .ok linear ∧ ofExpr e.canonical false = .ok canonical ∧
      ∀ values : Nat → Word,
        (∀ op, linear.evaluate (linear.tuple values) ≠ .error (.overflow op)) →
        (∀ op, canonical.evaluate (canonical.tuple values) ≠ .error (.overflow op)) →
        (∃ v, linear.evaluate (linear.tuple values) = .ok v ∧
          canonical.evaluate (canonical.tuple values) = .ok v) ∨
        ∃ fault other : Fault, fault.Undefined ∧ other.Undefined ∧
          linear.evaluate (linear.tuple values) = .error fault ∧
          canonical.evaluate (canonical.tuple values) = .error other := by
  obtain ⟨valid, n, slots, _⟩ := (ofExpr_eq_ok_iff e shortCircuit p).mp accepted
  have linear := (ofExpr_eq_ok_iff e false _).mpr ⟨valid, n, slots, rfl⟩
  obtain ⟨q, canonical, _⟩ := ofExpr_canonical accepted false
  refine ⟨_, q, linear, canonical, ?_⟩
  intro values
  have rewrites := Expr.rewrites_canonical valid.sized
  have first := Expr.strict_realizes (Leaf.assigned values) valid
  have second := Expr.strict_realizes (Leaf.assigned values) (rewrites.wellFormed valid)
  rw [Expr.exact_of_rewrites _ rewrites (fun _ => rfl) valid guarded] at second
  rw [evaluate_tuple linear, evaluate_tuple canonical]
  exact first.agree second

def withinQuotient : Expr :=
  .node .not [.node .gt [
    .node .abs [.node .sub [.leaf (.var ⟨7, "y"⟩), .leaf (.var ⟨4, "x"⟩)]],
    .node .div [.leaf (.var ⟨7, "y"⟩), .leaf (.var ⟨4, "x"⟩)]]]

theorem canonical_withinQuotient :
    withinQuotient.canonical = .node .le [
      .node .dist [.leaf (.var ⟨4, "x"⟩), .leaf (.var ⟨7, "y"⟩)],
      .node .div [.leaf (.var ⟨7, "y"⟩), .leaf (.var ⟨4, "x"⟩)]] := by
  have rewritten : withinQuotient.canonical = .node .le [
      .node .dist (Expr.sorted [.leaf (.var ⟨7, "y"⟩), .leaf (.var ⟨4, "x"⟩)]),
      .node .div [.leaf (.var ⟨7, "y"⟩), .leaf (.var ⟨4, "x"⟩)]] := rfl
  rw [rewritten, Expr.sorted_pair]
  rfl

theorem evaluate_canonical_withinQuotient :
    withinQuotient.BooleanNegations ∧ ∃ linear canonical,
      ofExpr withinQuotient false = .ok linear ∧ ofExpr withinQuotient.canonical false = .ok canonical ∧
      ∃ v, linear.evaluate (linear.tuple Int64.ofNat) = .ok v ∧
        canonical.evaluate (canonical.tuple Int64.ofNat) = .ok v := by
  have guarded : withinQuotient.BooleanNegations := by
    simp [withinQuotient, Expr.booleanNegations_node, Expr.category?, Operator.category]
  obtain ⟨linear, canonical, first, second, agree⟩ :=
    evaluate_canonical (rfl : ofExpr withinQuotient true = .ok _) guarded
  have value : linear.evaluate (linear.tuple Int64.ofNat) = .ok 0 := by
    cases first
    rfl
  have other : canonical.evaluate (canonical.tuple Int64.ofNat) = .ok 0 := by
    rw [canonical_withinQuotient] at second
    cases second
    rfl
  refine ⟨guarded, linear, canonical, first, second, ?_⟩
  rcases agree Int64.ofNat (by simp [value]) (by simp [other]) with same | ⟨_, _, _, _, faults, _⟩
  · exact same
  · rw [value] at faults
    cases faults

end Program

end Intension
