import Intension.Proofs.Expr.Alike
import Intension.Proofs.Expr.Instance
import Intension.Proofs.Expr.Rewritten

namespace Intension.Expr

section Relabelled

variable {f : Leaf → Leaf} (constants : ∀ k, f (.const k) = .const k)

include constants

/-- The only leaf that a rule looks at is a constant under an opposite. -/
theorem Rewrite.mapLeaves {a b : Expr} (rewrite : Rewrite a b) :
    Rewrite (a.mapLeaves f) (b.mapLeaves f) := by
  induction rewrite with
  | permuted symmetric perm =>
    rw [mapLeaves_node, mapLeaves_node]
    exact .permuted symmetric (perm.map _)
  | spliced associative before inner after split =>
    subst split
    rw [mapLeaves_node, mapLeaves_node, List.map_append, List.map_append, List.map_append, List.map_cons,
      mapLeaves_node]
    exact .spliced associative _ _ _ rfl
  | greater a b => exact .greater _ _
  | greaterEqual a b => exact .greaterEqual _ _
  | negated found a b => exact .negated found _ _
  | doubleNegation a => exact .doubleNegation _
  | distance a b => exact .distance _ _
  | opposite found =>
    simp only [Expr.mapLeaves, mapLeavesList, constants]
    exact .opposite found
  | operand before after split below ih =>
    subst split
    rw [mapLeaves_node, mapLeaves_node, List.map_append, List.map_append, List.map_cons, List.map_cons]
    exact .operand _ _ rfl ih

theorem Rewrites.mapLeaves {a b : Expr} (rewrites : Rewrites a b) :
    Rewrites (a.mapLeaves f) (b.mapLeaves f) := by
  induction rewrites with
  | refl => exact .refl
  | tail _ last ih => exact ih.tail (last.mapLeaves constants)

omit constants in
theorem Sized.mapLeaves {e : Expr} (sized : e.Sized) : (e.mapLeaves f).Sized := by
  induction sized with
  | leaf l => exact .leaf _
  | node here below ih =>
    rw [mapLeaves_node]
    refine sized_node.mpr ⟨by rwa [List.length_map], ?_⟩
    intro arg member
    obtain ⟨source, inside, rfl⟩ := List.mem_map.mp member
    exact ih source inside

/-- Other leaves may call for another order of operands, but not for other rules. -/
theorem canonical_mapLeaves {e : Expr} (sized : e.Sized) :
    (e.canonical.mapLeaves f).canonical = (e.mapLeaves f).canonical := by
  have rewrites := (rewrites_canonical sized).mapLeaves constants
  have alike := alike_of_rewrites rewrites sized.mapLeaves
  exact (canonical_eq_of_alike alike).symm

/-- The canonical form with other leaves. -/
def relabelled (f : Leaf → Leaf) (e : Expr) : Expr := (e.mapLeaves f).canonical

omit constants in
theorem relabelled_node {op : Operator} {args : List Expr} :
    (Expr.node op args).relabelled f = settled op (args.map (relabelled f)) := by
  rw [relabelled, mapLeaves_node, canonical, canonicalList_eq_map, List.map_map]
  rfl

variable (ranks : ∀ l, (f l).rank = l.rank)

include ranks

theorem leaf_relabelled_eq_const {l : Leaf} {k : Word}
    (same : (Expr.leaf l).relabelled f = .leaf (.const k)) : l = .const k := by
  have found : f l = .const k := Expr.leaf.inj same
  have rank := ranks l
  rw [found] at rank
  cases l with
  | const m => rw [← found, constants]
  | _ => cases rank

/-- Leaves of the same rank as before call for no rule that has not been applied. -/
theorem simplified?_relabelled {op : Operator} {args : List Expr} (here : Unchanged op args)
    (each : ∀ arg ∈ args, ∀ inner operands, arg.relabelled f = .node inner operands ↔
      ∃ under, arg = .node inner under ∧ operands = ordered inner (under.map (relabelled f))) :
    simplified? op (args.map (relabelled f)) = none := by
  refine simplified?_eq_none_iff.mpr ⟨?_, ?_, ?_⟩
  · rintro negation inner operands single
    obtain ⟨arg, rfl, same⟩ := List.map_eq_singleton_iff.mp single
    obtain ⟨under, rfl, rfl⟩ := (each arg List.mem_cons_self _ _).mp same
    have length := (ordered_perm inner (under.map (relabelled f))).length_eq
    rw [List.length_map] at length
    rw [← List.length_eq_zero_iff, length, List.length_eq_zero_iff]
    exact here.negation negation inner under rfl
  · rintro distance operands single
    obtain ⟨arg, rfl, same⟩ := List.map_eq_singleton_iff.mp single
    obtain ⟨under, rfl, _⟩ := (each arg List.mem_cons_self _ _).mp same
    exact here.distance distance under rfl
  · rintro opposite k single
    obtain ⟨arg, rfl, same⟩ := List.map_eq_singleton_iff.mp single
    cases arg with
    | leaf l =>
      cases leaf_relabelled_eq_const constants ranks same
      exact here.opposite opposite k rfl
    | node inner under =>
      have stays := (each _ List.mem_cons_self inner _).mpr ⟨under, rfl, rfl⟩
      rw [same] at stays
      cases stays

/-- Other leaves of the same ranks keep every operator and change only the order of its operands. -/
theorem relabelled_eq_node {e : Expr} (normal : Normal e) {op : Operator} {operands : List Expr} :
    e.relabelled f = .node op operands ↔
      ∃ args, e = .node op args ∧ operands = ordered op (args.map (relabelled f)) := by
  induction normal generalizing op operands with
  | leaf l =>
    simp [relabelled, Expr.mapLeaves, canonical]
  | @node top args here below ih =>
    have simple := simplified?_relabelled constants ranks here fun arg member _ _ => ih arg member
    have flat : top.isAssociative → ∀ operands, .node top operands ∉ args.map (relabelled f) := by
      intro associative operands member
      obtain ⟨arg, inside, same⟩ := List.mem_map.mp member
      obtain ⟨under, rfl, _⟩ := (ih arg inside).mp same
      exact here.flat associative under inside
    have oriented : top = .gt ∨ top = .ge → (args.map (relabelled f)).length ≠ 2 := by
      rw [List.length_map]
      exact here.oriented
    rw [relabelled_node, settled_of_rigid simple flat oriented]
    constructor
    · rintro ⟨⟩
      exact ⟨args, rfl, rfl⟩
    · rintro ⟨_, ⟨⟩, rfl⟩
      rfl

theorem rank_relabelled {e : Expr} (normal : Normal e) : (e.relabelled f).rank = e.rank := by
  cases e with
  | leaf l => exact ranks l
  | node op args =>
    rw [(relabelled_eq_node constants ranks normal).mpr ⟨args, rfl, rfl⟩]
    rfl

/-- Two operands that change places are of the same rank. -/
theorem relabelled_pair {op : Operator} {a b : Expr} (normal : Normal (.node op [a, b])) :
    (Expr.node op [a, b]).relabelled f = .node op [a.relabelled f, b.relabelled f] ∨
      (Expr.node op [a, b]).relabelled f = .node op [b.relabelled f, a.relabelled f] ∧
        a.rank = b.rank := by
  have same := (relabelled_eq_node constants ranks normal).mpr ⟨[a, b], rfl, rfl⟩
  obtain ⟨here, below⟩ := normal_node.mp normal
  have first := rank_relabelled constants ranks (below a (by simp))
  have second := rank_relabelled constants ranks (below b (by simp))
  rcases ordered_pair op (a.relabelled f) (b.relabelled f) with ⟨kept, _⟩ | ⟨swapped, symmetric, after⟩
  · exact .inl (same.trans (congrArg _ kept))
  · refine .inr ⟨same.trans (congrArg _ swapped), ?_⟩
    have ascending : (a.compare b).isLE :=
      List.rel_of_pairwise_cons (here.ascending symmetric) (List.mem_singleton_self b)
    have before := rank_le_of_isLE ascending
    omega

end Relabelled

theorem mem_parameters_canonical {e : Expr} (sized : e.Sized) {i : Nat} :
    i ∈ e.canonical.parameters ↔ i ∈ e.parameters := by
  have rewrites : Rewrites e e.canonical := rewrites_canonical sized
  exact (rewrites.filterMap_leaves fun _ => rfl).mem_iff.symm

/-- Canonical form before arguments are filled in makes no difference after it, and it neither needs
    more of them nor fewer. -/
theorem canonical_instantiate {e : Expr} (sized : e.Sized) (arguments : List Atom) :
    (e.firstFree ≤ arguments.length →
        ∃ s t, e.instantiate arguments = .ok s ∧ e.canonical.instantiate arguments = .ok t ∧
          t.canonical = s.canonical) ∧
      (arguments.length < e.firstFree →
        ∃ i j, e.instantiate arguments = .error (.missingArgument i arguments.length) ∧
          e.canonical.instantiate arguments = .error (.missingArgument j arguments.length)) := by
  constructor
  · intro enough
    have given : ∀ i ∈ e.parameters, i < arguments.length :=
      fun i used => Nat.lt_of_lt_of_le (lt_firstFree used) enough
    have still : ∀ i ∈ e.canonical.parameters, i < arguments.length :=
      fun i used => given i ((mem_parameters_canonical sized).mp used)
    exact ⟨_, _, instantiate_of_lt given, instantiate_of_lt still, canonical_mapLeaves (fun _ => rfl) sized⟩
  · intro few
    obtain ⟨highest, used, missing⟩ := exists_of_lt_firstFree few
    obtain ⟨i, left⟩ := instantiate_of_missing used missing
    obtain ⟨j, right⟩ := instantiate_of_missing ((mem_parameters_canonical sized).mpr used) missing
    exact ⟨i, j, left, right⟩

/-- Constants in the places of its parameters call for another rule and for another order. -/
def shiftedOpposite : Expr :=
  .node .add [.node .neg [.leaf (.param 1)], .leaf (.param 0), .leaf (.var ⟨4, "x"⟩)]

theorem canonical_instantiate_shiftedOpposite :
    shiftedOpposite.Sized ∧ shiftedOpposite.firstFree ≤ [Atom.const 5, .const 3].length ∧
      (∃ s t, shiftedOpposite.instantiate [.const 5, .const 3] = .ok s ∧
        shiftedOpposite.canonical.instantiate [.const 5, .const 3] = .ok t ∧
        t.canonical = s.canonical) ∧
      [Atom.const 5].length < shiftedOpposite.firstFree ∧
      ∃ i j, shiftedOpposite.instantiate [.const 5] = .error (.missingArgument i 1) ∧
        shiftedOpposite.canonical.instantiate [.const 5] = .error (.missingArgument j 1) := by
  have sized : shiftedOpposite.Sized := by
    simp [shiftedOpposite, sized_node, Operator.arity, Arity.accepts]
  exact ⟨sized, Nat.le_refl 2, (canonical_instantiate sized [.const 5, .const 3]).1 (Nat.le_refl 2),
    Nat.one_lt_two, (canonical_instantiate sized [.const 5]).2 Nat.one_lt_two⟩

end Intension.Expr
