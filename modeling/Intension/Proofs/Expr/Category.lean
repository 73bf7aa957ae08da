import Intension.Proofs.Expr.Alike

namespace Intension.Expr

def negations : Nat → Expr → Expr
  | 0, e => e
  | n + 1, e => .node .not [negations n e]

/-- Double negations in front are of truth values. They are dropped, whatever they are of. -/
def KeepsCategory (e : Expr) : Prop :=
  ∀ n a, e = negations (2 * n + 2) a → a.category? = some .boolean

theorem category?_arranged (op : Operator) (args : List Expr) :
    (arranged op args).category? = some op.category := by
  unfold arranged
  split <;> rfl

theorem category?_settled {op : Operator} (other : op ≠ .not) (args : List Expr) :
    (settled op args).category? = some op.category := by
  unfold settled
  split
  · rename_i e found
    unfold simplified? at found
    split at found
    · exact absurd rfl other
    · exact absurd rfl other
    · cases found
      exact category?_arranged .dist _
    · obtain ⟨n, _, rfl⟩ := Option.map_eq_some_iff.mp found
      rfl
    · cases found
  · exact category?_arranged op _

theorem category?_canonical_of_ne_not {e : Expr} (other : ∀ operands, e ≠ .node .not operands) :
    e.canonical.category? = e.category? := by
  cases e with
  | leaf l => rfl
  | node op args =>
    rw [canonical_node]
    exact category?_settled (fun same => other args (by rw [same])) _

theorem arranged_ne_not {op : Operator} (other : op ≠ .not) (args operands : List Expr) :
    arranged op args ≠ .node .not operands := by
  intro same
  unfold arranged at same
  split at same <;> cases same
  exact other rfl

theorem canonical_ne_not {e : Expr} (other : ∀ operands, e ≠ .node .not operands) (operands : List Expr) :
    e.canonical ≠ .node .not operands := by
  cases e with
  | leaf l => exact nofun
  | node op args =>
    have root : op ≠ .not := fun same => other args (by rw [same])
    rw [canonical_node]
    unfold settled
    split
    · rename_i found
      unfold simplified? at found
      split at found
      · exact absurd rfl root
      · exact absurd rfl root
      · cases found
        exact arranged_ne_not (by decide) _ operands
      · obtain ⟨n, _, rfl⟩ := Option.map_eq_some_iff.mp found
        exact nofun
      · cases found
    · exact arranged_ne_not root _ operands

theorem category?_canonical_not {e : Expr} (other : ∀ operands, e ≠ .node .not operands) :
    (Expr.node .not [e]).canonical.category? = some .boolean := by
  rw [canonical_node, List.map_singleton, settled]
  split
  · rename_i found
    cases operand : e.canonical with
    | leaf l =>
      rw [operand] at found
      cases found
    | node test args =>
      have single : test ≠ .not := by
        rintro rfl
        exact canonical_ne_not other args operand
      rw [operand] at found
      unfold simplified? at found
      split at found
      · rename_i same
        cases same
        exact absurd rfl single
      · rename_i same
        cases same
        obtain ⟨opposite, negation, rfl⟩ := Option.map_eq_some_iff.mp found
        rw [category?_arranged]
        cases test <;> cases negation <;> rfl
      · rename_i same _
        cases same
      · rename_i same _
        cases same
      · cases found
  · exact category?_arranged .not _

theorem exists_negations {e : Expr} (sized : e.Sized) :
    ∃ n a, e = negations n a ∧ ∀ operands, a ≠ .node .not operands := by
  induction sized with
  | leaf l => exact ⟨0, .leaf l, rfl, nofun⟩
  | node here below ih =>
    rename_i op args
    by_cases negation : op = .not
    · subst negation
      obtain ⟨b, rfl⟩ := List.length_eq_one_iff.mp (of_decide_eq_true here)
      obtain ⟨n, a, rfl, other⟩ := ih b (List.mem_singleton.mpr rfl)
      exact ⟨n + 1, a, rfl, other⟩
    · refine ⟨0, .node op args, rfl, ?_⟩
      intro operands same
      cases same
      exact negation rfl

theorem sized_of_negations {n : Nat} {e : Expr} (sized : (negations n e).Sized) : e.Sized := by
  induction n with
  | zero => exact sized
  | succ n ih => exact ih ((sized_node.mp sized).2 _ (List.mem_singleton.mpr rfl))

theorem canonical_negations {n : Nat} {e : Expr} (sized : (negations (2 * n) e).Sized) :
    (negations (2 * n) e).canonical = e.canonical := by
  induction n with
  | zero => rfl
  | succ n ih =>
    have below : (negations (2 * n) e).Sized := sized_of_negations (n := 2) sized
    rw [← ih below]
    exact (Rewrite.doubleNegation _).canonical_eq sized

theorem category?_negations (n : Nat) (e : Expr) : (negations (n + 1) e).category? = some .boolean := rfl

theorem negations_split {j k : Nat} {a b : Expr} (other : ∀ operands, a ≠ .node .not operands)
    (same : negations j b = negations k a) : ∃ n, k = j + n ∧ b = negations n a := by
  induction j generalizing k with
  | zero => exact ⟨k, (Nat.zero_add k).symm, same⟩
  | succ j ih =>
    cases k with
    | zero => exact absurd same.symm (other _)
    | succ k =>
      have inner : negations j b = negations k a := by
        simpa [negations] using same
      obtain ⟨n, rfl, split⟩ := ih inner
      exact ⟨n, by omega, split⟩

/-- Canonical form changes the category of an expression only where it drops double negations of
    something that is no truth value. -/
theorem category?_canonical_iff {e : Expr} (sized : e.Sized) :
    e.canonical.category? = e.category? ↔ e.KeepsCategory := by
  obtain ⟨k, a, rfl, other⟩ := exists_negations sized
  have parity : ∃ m, k = 2 * m ∨ k = 2 * m + 1 := ⟨k / 2, by omega⟩
  obtain ⟨m, rfl | rfl⟩ := parity
  · rw [canonical_negations sized, category?_canonical_of_ne_not other]
    constructor
    · intro same n b split
      obtain ⟨i, count, rfl⟩ := negations_split other split.symm
      cases i with
      | zero =>
        rw [show 2 * m = 2 * n + 1 + 1 by omega, category?_negations] at same
        exact same
      | succ i => exact category?_negations i a
    · intro keeps
      cases m with
      | zero => rfl
      | succ m => exact keeps m a rfl
  · have odd : (negations (2 * m + 1) a).canonical.category? = some .boolean := by
      have whole : negations (2 * m + 1) a = negations (2 * m) (.node .not [a]) := by
        clear sized
        induction m with
        | zero => rfl
        | succ m ih => exact congrArg (negations 2) ih
      rw [whole] at sized ⊢
      rw [canonical_negations sized, category?_canonical_not other]
    rw [odd, category?_negations]
    refine ⟨fun _ n b split => ?_, fun _ => rfl⟩
    obtain ⟨i, count, rfl⟩ := negations_split other split.symm
    rw [show i = i - 1 + 1 by omega]
    exact category?_negations _ a

end Intension.Expr
