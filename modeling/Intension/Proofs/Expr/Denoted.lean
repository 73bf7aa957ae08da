import Intension.Proofs.Expr.Denotes
import Intension.Proofs.Expr.Rewritten

namespace Intension

theorem membership_perm (expected : Bool) (v : Word) {vs ws : List Word} (perm : vs.Perm ws) :
    membership expected v vs = membership expected v ws := by
  have inside : vs.contains v = ws.contains v := by
    rw [Bool.eq_iff_iff, List.contains_iff_mem, List.contains_iff_mem, perm.mem_iff]
  rw [membership, membership, perm.length_eq, inside]

namespace Expr

variable {read : Leaf → Word}

theorem Denotes.permuted {op : Operator} (symmetric : op.isSymmetric) (plain : Plain op)
    {args others : List Expr} (perm : args.Perm others) (arity : op.arity.accepts args.length) {w : Word}
    (value : Denotes read (.node op args) w) : Denotes read (.node op others) w := by
  rcases value.of_plain plain with ⟨arg, member, _, u, value, decides⟩ | ⟨vs, each, gives⟩
  · refine .decided (perm.mem_iff.mp member) ?_ value decides
    rintro rfl
    cases symmetric
  · obtain ⟨ws, same, order⟩ := List.perm_comp_forall₂ perm.symm each
    refine .operator plain same (gives.perm symmetric plain order.symm ?_)
    rwa [← each.length_eq]

theorem connective_of_decided? {op : Operator} (associative : op.isAssociative) {u w : Word}
    (decides : op.decided? u = some w) : op = .and ∨ op = .or := by
  rcases Operator.decided?_eq_some_iff.mp decides with ⟨rfl, _⟩ | ⟨rfl, _⟩ | ⟨rfl, _⟩
  · exact .inl rfl
  · exact .inr rfl
  · cases associative

/-- A connective that decides one around it has an operand that does. -/
theorem Denotes.exists_decides {op : Operator} (connective : op = .and ∨ op = .or) {args : List Expr}
    {u w : Word} (value : Denotes read (.node op args) u) (decides : op.decided? u = some w) :
    ∃ arg ∈ args, ∃ x, Denotes read arg x ∧ op.decided? x = some w := by
  have plain : Plain op := by rcases connective with rfl | rfl <;> decide
  rcases value.of_plain plain with ⟨arg, member, _, x, operand, decided⟩ | ⟨vs, each, gives⟩
  · have again := Operator.decided?_again connective decided
    rw [decides, Option.some.injEq] at again
    subst again
    exact ⟨arg, member, x, operand, decided⟩
  · have applied := gives.applied (Operator.whole_of_decided? decides)
    obtain ⟨x, member, decided⟩ := Operator.exists_decides connective applied decides
    obtain ⟨arg, inside, operand⟩ := exists_of_forall₂ each.flip member
    exact ⟨arg, inside, x, operand, decided⟩

theorem Denotes.spliced {op : Operator} (associative : op.isAssociative) {before inner after : List Expr}
    (outer : op.arity.accepts (before ++ .node op inner :: after).length)
    (below : op.arity.accepts inner.length) {w : Word}
    (value : Denotes read (.node op (before ++ .node op inner :: after)) w) :
    Denotes read (.node op (before ++ inner ++ after)) w := by
  have plain := plain_of_associative associative
  have unordered : op ≠ .imp := by
    rintro rfl
    cases associative
  have within {arg : Expr} (member : arg ∈ inner) {u : Word} (value : Denotes read arg u)
      (decides : op.decided? u = some w) : Denotes read (.node op (before ++ inner ++ after)) w := by
    refine .decided ?_ (fun same => absurd same unordered) value decides
    exact List.mem_append_left _ (List.mem_append_right _ member)
  rcases value.of_plain plain with ⟨arg, member, _, u, operand, decides⟩ | ⟨vs, each, gives⟩
  · by_cases inside : arg = .node op inner
    · subst inside
      obtain ⟨arg, deeper, x, operand, decided⟩ :=
        operand.exists_decides (connective_of_decided? associative decides) decides
      exact within deeper operand decided
    · refine .decided ?_ (fun same => absurd same unordered) operand decides
      simp only [List.mem_append, List.mem_cons, inside, false_or] at member ⊢
      exact member.imp_left .inl
  · obtain ⟨us, rest, rfl, left, others⟩ := forall₂_append_left.mp each
    obtain ⟨v, ws, first, right, rfl⟩ := List.forall₂_cons_left_iff.mp others
    rcases first.of_plain plain with ⟨arg, member, _, x, operand, decided⟩ | ⟨xs, operands, total⟩
    · -- The value of the inner connective, which is among the operands, decides the outer one as well.
      have connective := connective_of_decided? associative decided
      have applied := gives.applied (Operator.whole_of_decided? decided)
      have again := Operator.decided?_again connective decided
      have same := Operator.apply_of_mem connective again List.mem_append_cons_self applied
      subst same
      exact within member operand decided
    · have flat := List.rel_append (List.rel_append left operands) right
      have arity := accepts_spliced associative outer below
      rw [each.length_eq] at outer
      rw [operands.length_eq] at below
      rw [flat.length_eq] at arity
      exact .operator plain flat (total.spliced associative plain outer below arity gives)

theorem Denotes.negated {test opposite : Operator} (found : test.negation? = some opposite) {a b : Expr}
    (valid : WellFormed (.node test [a, b])) {w : Word}
    (value : Denotes read (.node .not [.node test [a, b]]) w) : Denotes read (.node opposite [a, b]) w := by
  obtain ⟨u, tested, negates⟩ := value.of_single (by decide) (fun _ => rfl)
  have negation : Word.ofBool (decide (u = 0)) = w := Except.ok.inj (negates.applied (by decide))
  cases valid with
  | test tests first rest =>
    obtain ⟨v, vs, member, members, result⟩ := tested.of_test tests
    have other : opposite = .mem ∨ opposite = .notMem := by
      rcases tests with rfl | rfl <;> cases found <;> simp
    refine .test other member members ?_
    obtain ⟨count, counted, same⟩ := bind_eq_ok result
    rw [membership, counted]
    cases same
    rw [← negation]
    rcases tests with rfl | rfl <;> cases found <;> cases vs.contains v <;> rfl
  | operator plain arity each =>
    have never : ∀ u, test.decided? u = none := by
      cases test <;> cases found <;> exact fun _ => rfl
    obtain ⟨x, y, left, right, gives⟩ := tested.of_pair plain never
    obtain ⟨n, holds, fails⟩ := Operator.exact_negation found plain x.toInt y.toInt
    have tests := Operator.exact_of_gives plain arity gives
    have result : n = u.toInt := Option.some.inj (holds.symm.trans tests)
    refine .pair (plain_negated found plain) left right (Operator.gives_of_exact (plain_negated found plain)
      (by cases test <;> cases found <;> decide) (accepts_negated found) ?_)
    rw [← negation, Operator.toInt_ofBool]
    refine fails.trans (congrArg some (truth_congr ?_))
    rw [result, Operator.toInt_eq_zero, decide_eq_true_iff]

theorem Denotes.replaced {op : Operator} (plain : Plain op) {before after : List Expr} {a b : Expr}
    (kept : ∀ v, Denotes read a v → Denotes read b v) {w : Word}
    (value : Denotes read (.node op (before ++ a :: after)) w) :
    Denotes read (.node op (before ++ b :: after)) w := by
  rcases value.of_plain plain with ⟨arg, member, antecedent, u, operand, decides⟩ | ⟨vs, each, gives⟩
  · have outside (implies : op = .imp) (other : arg ∉ before) : before = [] ∧ arg = a := by
      have first := antecedent implies
      cases before with
      | nil => exact ⟨rfl, (Option.some.inj first).symm⟩
      | cons c before => exact absurd (Option.some.inj first ▸ List.mem_cons_self) other
    by_cases inside : arg ∈ before
    · refine .decided (List.mem_append_left _ inside) ?_ operand decides
      obtain ⟨c, rest, rfl⟩ := List.exists_cons_of_ne_nil (List.ne_nil_of_mem inside)
      exact antecedent
    · by_cases same : arg = a
      · subst same
        refine .decided List.mem_append_cons_self ?_ (kept u operand) decides
        intro implies
        rw [(outside implies inside).1]
        rfl
      · have behind : arg ∈ after := by simpa [inside, same] using member
        refine .decided (List.mem_append_right _ (List.mem_cons_of_mem _ behind)) ?_ operand decides
        exact fun implies => absurd (outside implies inside).2 same
  · exact .operator plain (forall₂_replaced kept each) gives

theorem Denotes.doubleNegation {a : Expr} (valid : a.WellFormed) (boolean : a.category? = some .boolean)
    {w : Word} (value : Denotes read (.node .not [.node .not [a]]) w) : Denotes read a w := by
  obtain ⟨u, outer, negates⟩ := value.of_single (by decide) (fun _ => rfl)
  obtain ⟨v, operand, again⟩ := outer.of_single (by decide) (fun _ => rfl)
  cases negates.applied (by decide)
  cases again.applied (by decide)
  rcases operand.truth valid boolean with rfl | rfl <;> exact operand

theorem Denotes.distance {a b : Expr} {w : Word} (value : Denotes read (.node .abs [.node .sub [a, b]]) w) :
    Denotes read (.node .dist [a, b]) w := by
  obtain ⟨d, outer, size⟩ := value.of_single (by decide) (fun _ => rfl)
  obtain ⟨u, v, left, right, difference⟩ := outer.of_pair (by decide) (fun _ => rfl)
  have subtracted : Operator.inRange .sub (u.toInt - v.toInt) = .ok d := difference.applied (by decide)
  have absolute : Operator.inRange .abs d.toInt.natAbs = .ok w := size.applied (by decide)
  refine .pair (by decide) left right (.inl ?_)
  rw [Operator.apply, Operator.inRange_of_toInt d (Operator.inRange_eq_ok subtracted)]
  exact Operator.inRange_of_toInt w (Operator.inRange_eq_ok absolute)

theorem Denotes.opposite (constants : ∀ k, read (.const k) = k) {k n : Word}
    (found : Word.ofInt? (-k.toInt) = some n) {w : Word}
    (value : Denotes read (.node .neg [.leaf (.const k)]) w) : Denotes read (.leaf (.const n)) w := by
  obtain ⟨u, operand, gives⟩ := value.of_single (by decide) (fun _ => rfl)
  cases operand
  have applied : Operator.inRange .neg (-(read (.const k)).toInt) = .ok w := gives.applied (by decide)
  rw [constants, Operator.inRange, found] at applied
  cases applied
  have leaf : Denotes read (.leaf (.const n)) (read (.const n)) := .leaf _
  rwa [constants] at leaf

/-- A comparison read from the other side. -/
theorem Denotes.turned {op other : Operator} (plain : Plain op) (otherPlain : Plain other)
    (undecided : ∀ u, op.decided? u = none) (turns : ∀ {u v w}, op.Gives [u, v] w → other.Gives [v, u] w)
    {a b : Expr} {w : Word} (value : Denotes read (.node op [a, b]) w) :
    Denotes read (.node other [b, a]) w := by
  obtain ⟨u, v, left, right, gives⟩ := value.of_pair plain undecided
  exact .pair otherPlain right left (turns gives)

theorem Rewrite.denotes {a b : Expr} (rewrite : Rewrite a b) (constants : ∀ k, read (.const k) = k)
    (valid : a.WellFormed) (guarded : a.BooleanNegations) {w : Word} (value : Denotes read a w) :
    Denotes read b w := by
  -- As for exact values, a rule inside a set is met at the test that the set belongs to.
  induction valid generalizing b w with
  | leaf concrete => cases rewrite
  | noMembers =>
    obtain ⟨others, rfl, perm | ⟨before, _, after, _, split, _⟩⟩ := rewrite.of_set
    · rwa [List.nil_perm.mp perm]
    · simp at split
  | test tests first rest ihFirst ihRest =>
    rename_i op tested members
    have below := (booleanNegations_node.mp guarded).2
    obtain ⟨u, vs, head, each, found⟩ := value.of_test tests
    rcases rewrite.of_test tests with ⟨other, rfl, inner⟩ | ⟨others, rfl, inner⟩
    · exact .test tests (ihFirst inner (below tested (by simp)) head) each found
    · have deeper := (booleanNegations_node.mp (below (.node .set members) (by simp))).2
      obtain ⟨_, same, perm | ⟨before, a, after, c, rfl, changed, step⟩⟩ := inner.of_set
      · cases same
        obtain ⟨ws, kept, order⟩ := List.perm_comp_forall₂ perm.symm each
        refine .test tests head kept ?_
        rwa [membership_perm _ _ order]
      · cases same
        subst changed
        refine .test tests head (forall₂_replaced ?_ each) found
        intro v operand
        exact ihRest a List.mem_append_cons_self step (deeper a List.mem_append_cons_self) operand
  | operator plain arity each ih =>
    obtain ⟨_, below⟩ := booleanNegations_node.mp guarded
    cases rewrite with
    | permuted symmetric perm => exact value.permuted symmetric plain perm arity
    | spliced associative before inner after split =>
      subst split
      exact value.spliced associative arity ((each _ List.mem_append_cons_self).operands plain).1
    | greater a b =>
      exact value.turned (by decide) (by decide) (fun _ => rfl) (fun gives => .inl (gives.applied (by decide)))
    | greaterEqual a b =>
      exact value.turned (by decide) (by decide) (fun _ => rfl) (fun gives => .inl (gives.applied (by decide)))
    | negated found a b => exact value.negated found (each _ (List.mem_singleton.mpr rfl))
    | doubleNegation a =>
      have inner := (each _ (List.mem_singleton.mpr rfl)).operands plain
      have boolean := (booleanNegations_node.mp (below _ (List.mem_singleton.mpr rfl))).1 rfl
      exact value.doubleNegation (inner.2 _ (List.mem_singleton.mpr rfl))
        (boolean _ (List.mem_singleton.mpr rfl))
    | distance a b => exact value.distance
    | opposite found => exact value.opposite constants found
    | operand before after split changed =>
      subst split
      refine value.replaced plain ?_
      intro v operand
      exact ih _ List.mem_append_cons_self changed (below _ List.mem_append_cons_self) operand

theorem Rewrites.denotes {a b : Expr} (rewrites : Rewrites a b) (constants : ∀ k, read (.const k) = k)
    (valid : a.WellFormed) (guarded : a.BooleanNegations) {w : Word} (value : Denotes read a w) :
    Denotes read b w := by
  induction rewrites with
  | refl => exact value
  | tail before last ih =>
    exact last.denotes constants (Rewrites.wellFormed before valid)
      (Rewrites.booleanNegations before guarded) ih

theorem Denotes.canonical {e : Expr} (constants : ∀ k, read (.const k) = k) (valid : e.WellFormed)
    (guarded : e.BooleanNegations) {w : Word} (value : Denotes read e w) : Denotes read e.canonical w :=
  (rewrites_canonical valid.sized).denotes constants valid guarded value

/-- Canonical form gives no other value, whatever operands are evaluated on either side. -/
theorem value_canonical {e : Expr} (constants : ∀ k, read (.const k) = k) (valid : e.WellFormed)
    (guarded : e.BooleanNegations) {shortCircuit other : Bool} {v w : Word}
    (found : e.value shortCircuit read = .ok v) (result : e.canonical.value other read = .ok w) :
    w = v := by
  have canonical := (rewrites_canonical valid.sized).wellFormed valid
  have value := (denotes_of_value valid found).canonical constants valid guarded
  exact (denotes_of_value canonical result).unique canonical value

end Expr

end Intension
