import Intension.Proofs.Operator.Flags

namespace Intension

namespace Operator

/-- The operators that have no value on some words, sums and products aside. -/
def faults : Operator → Bool
  | neg | abs | sub | div | mod | sqr | pow | dist => true
  | _ => false

/-- The value of an operator on its operands, where a sum or a product may leave the range on its way
    to a word. -/
def Gives (op : Operator) (vs : List Word) (v : Word) : Prop :=
  op.apply vs = .ok v ∨ (op = add ∨ op = mul) ∧ op.exact (vs.map Int64.toInt) = some v.toInt

theorem inRange_error {op : Operator} {n : Int} {fault : Fault} (found : inRange op n = .error fault) :
    fault = .overflow op := by
  unfold inRange at found
  split at found <;> cases found
  rfl

theorem fold_error {op : Operator} {f : Word → Word → Int} {v : Word} {vs : List Word} {fault : Fault}
    (found : vs.foldlM (fun total w => inRange op (f total w)) v = .error fault) :
    fault = .overflow op := by
  induction vs generalizing v with
  | nil => cases found
  | cons w vs ih =>
    rw [List.foldlM_cons] at found
    cases first : inRange op (f v w) with
    | error other =>
      rw [first] at found
      cases found
      exact inRange_error first
    | ok total =>
      rw [first] at found
      exact ih found

theorem apply_fold_error {op : Operator} (fold : op = add ∨ op = mul) {vs : List Word}
    (nonempty : vs ≠ []) {fault : Fault} (found : op.apply vs = .error fault) : fault = .overflow op := by
  obtain ⟨v, ws, rfl⟩ := List.exists_cons_of_ne_nil nonempty
  rcases fold with rfl | rfl
  · exact fold_error found
  · exact fold_error found

theorem apply_ok_of_not_faults {op : Operator} (plain : Expr.Plain op) (safe : ¬ op.faults)
    (noFold : ¬ (op = add ∨ op = mul)) {vs : List Word} (accepted : op.arity.accepts vs.length) :
    ∃ v, op.apply vs = .ok v := by
  have nonempty := plain.args_ne_nil accepted
  obtain ⟨notSet, notMem, notNotMem⟩ := plain
  cases op with
  | min | max | iff =>
    obtain ⟨v, ws, rfl⟩ := List.exists_cons_of_ne_nil nonempty
    exact ⟨_, rfl⟩
  | not =>
    obtain ⟨a, rfl⟩ := List.length_eq_one_iff.mp (of_decide_eq_true accepted)
    exact ⟨_, rfl⟩
  | imp =>
    obtain ⟨a, b, rfl⟩ := List.length_eq_two.mp (of_decide_eq_true accepted)
    exact ⟨_, rfl⟩
  | ite =>
    obtain ⟨a, b, c, rfl⟩ := List.length_eq_three.mp (of_decide_eq_true accepted)
    exact ⟨_, rfl⟩
  | lt | le | ge | gt | ne | eq | and | or | xor => exact ⟨_, rfl⟩
  | add | mul => simp at noFold
  | set | mem | notMem => contradiction
  | _ => exact absurd rfl safe

theorem exact_of_apply {op : Operator} (plain : Expr.Plain op) {vs : List Word} {v : Word}
    (accepted : op.arity.accepts vs.length) (applied : op.apply vs = .ok v) :
    op.exact (vs.map Int64.toInt) = some v.toInt := by
  have realizes := apply_realizes plain accepted
  rw [applied] at realizes
  generalize op.exact (vs.map Int64.toInt) = m at realizes
  cases realizes
  rfl

theorem eq_of_exact {op : Operator} (plain : Expr.Plain op) {vs : List Word} {v w : Word}
    (accepted : op.arity.accepts vs.length) (exact : op.exact (vs.map Int64.toInt) = some v.toInt)
    (applied : op.apply vs = .ok w) : w = v := by
  have same := exact_of_apply plain accepted applied
  rw [exact, Option.some.injEq, Int64.toInt_inj] at same
  exact same.symm

theorem exact_of_gives {op : Operator} (plain : Expr.Plain op) {vs : List Word} {v : Word}
    (accepted : op.arity.accepts vs.length) (gives : op.Gives vs v) :
    op.exact (vs.map Int64.toInt) = some v.toInt := by
  rcases gives with applied | ⟨_, exact⟩
  · exact exact_of_apply plain accepted applied
  · exact exact

theorem gives_of_exact {op : Operator} (plain : Expr.Plain op) (safe : ¬ op.faults) {vs : List Word}
    {v : Word} (accepted : op.arity.accepts vs.length)
    (exact : op.exact (vs.map Int64.toInt) = some v.toInt) : op.Gives vs v := by
  by_cases fold : op = add ∨ op = mul
  · exact .inr ⟨fold, exact⟩
  · obtain ⟨w, applied⟩ := apply_ok_of_not_faults plain safe fold accepted
    rw [← eq_of_exact plain accepted exact applied]
    exact .inl applied

theorem apply_of_gives {op : Operator} (plain : Expr.Plain op) {vs : List Word} {v : Word}
    (accepted : op.arity.accepts vs.length) (gives : op.Gives vs v) :
    op.apply vs = .ok v ∨ (op = add ∨ op = mul) ∧ op.apply vs = .error (.overflow op) := by
  rcases gives with applied | ⟨fold, exact⟩
  · exact .inl applied
  · cases found : op.apply vs with
    | error fault =>
      rw [apply_fold_error fold (plain.args_ne_nil accepted) found]
      exact .inr ⟨fold, rfl⟩
    | ok w =>
      rw [eq_of_exact plain accepted exact found]
      exact .inl rfl

theorem Gives.applied {op : Operator} (whole : op ≠ add ∧ op ≠ mul) {vs : List Word} {v : Word}
    (gives : op.Gives vs v) : op.apply vs = .ok v := by
  rcases gives with applied | ⟨rfl | rfl, _⟩
  · exact applied
  · exact absurd rfl whole.1
  · exact absurd rfl whole.2

theorem inRange_of_toInt {op : Operator} {n : Int} (v : Word) (same : v.toInt = n) :
    inRange op n = .ok v := by
  rw [inRange, Word.ofInt?_eq_some_iff.mpr same]

/-- The distance of two words is a word only if both differences are. -/
theorem apply_dist_comm {a b v : Word} (applied : apply dist [a, b] = .ok v) :
    apply dist [b, a] = .ok v := by
  obtain ⟨difference, found, distance⟩ := bind_eq_ok applied
  have forward := inRange_eq_ok found
  have size := inRange_eq_ok distance
  have opposite : ∃ w : Word, w.toInt = b.toInt - a.toInt := by
    cases back : Word.ofInt? (b.toInt - a.toInt) with
    | some w => exact ⟨w, Word.ofInt?_eq_some_iff.mp back⟩
    | none =>
      rw [Word.ofInt?_eq_none_iff] at back
      have most := v.toInt_le
      rw [Int64.toInt_maxValue] at most
      omega
  obtain ⟨w, backward⟩ := opposite
  rw [apply, inRange_of_toInt w backward]
  exact inRange_of_toInt v (by omega)

/-- Symmetric operators give the same value on the same operands in another order. -/
theorem Gives.perm {op : Operator} (symmetric : op.isSymmetric) (plain : Expr.Plain op)
    {vs ws : List Word} (perm : vs.Perm ws) (accepted : op.arity.accepts vs.length) {v : Word}
    (gives : op.Gives vs v) : op.Gives ws v := by
  by_cases distance : op = dist
  · subst distance
    obtain ⟨a, b, rfl⟩ := List.length_eq_two.mp (of_decide_eq_true accepted)
    rcases List.pair_perm.mp perm with rfl | rfl
    · exact gives
    · exact .inl (apply_dist_comm (gives.applied (by decide)))
  · have safe : ¬ op.faults := by
      cases op <;> first | contradiction | decide
    have exact := exact_of_gives plain accepted gives
    rw [exact_perm symmetric (perm.map Int64.toInt)] at exact
    exact gives_of_exact plain safe (by rwa [← perm.length_eq]) exact

theorem Gives.spliced {op : Operator} (associative : op.isAssociative) (plain : Expr.Plain op)
    {xs ys zs : List Word} {u v : Word} (outer : op.arity.accepts (xs ++ u :: zs).length)
    (below : op.arity.accepts ys.length) (arity : op.arity.accepts (xs ++ ys ++ zs).length)
    (inner : op.Gives ys u) (gives : op.Gives (xs ++ u :: zs) v) : op.Gives (xs ++ ys ++ zs) v := by
  have safe : ¬ op.faults := by
    cases op <;> first | contradiction | decide
  have operands : ys.map Int64.toInt ≠ [] := by
    rw [ne_eq, List.map_eq_nil_iff]
    exact plain.args_ne_nil below
  obtain ⟨n, value, splices⟩ := exact_splice associative operands
  have part := exact_of_gives plain below inner
  have whole := exact_of_gives plain outer gives
  rw [value, Option.some.injEq] at part
  rw [List.map_append, List.map_cons, ← part, splices] at whole
  refine gives_of_exact plain safe arity ?_
  rw [List.map_append, List.map_append]
  exact whole

theorem decided?_eq_some_iff {op : Operator} {u w : Word} :
    op.decided? u = some w ↔
      op = and ∧ u = 0 ∧ w = 0 ∨ op = or ∧ u ≠ 0 ∧ w = 1 ∨ op = imp ∧ u = 0 ∧ w = 1 := by
  cases op <;> simp [decided?, eq_comm]

/-- A conjunction or a disjunction has the value that any operand decides. -/
theorem apply_of_mem {op : Operator} (connective : op = and ∨ op = or) {u w r : Word}
    (decides : op.decided? u = some w) {vs : List Word} (member : u ∈ vs) (applied : op.apply vs = .ok r) :
    r = w := by
  have forms := decided?_eq_some_iff.mp decides
  rcases connective with rfl | rfl
  · obtain ⟨rfl, rfl⟩ : u = 0 ∧ w = 0 := by simpa using forms
    have fails : vs.all (· ≠ 0) = false := List.all_eq_false.mpr ⟨0, member, by decide⟩
    rw [apply, fails] at applied
    cases applied
    rfl
  · obtain ⟨nonzero, rfl⟩ : u ≠ 0 ∧ w = 1 := by simpa using forms
    have holds : vs.any (· ≠ 0) = true := List.any_eq_true.mpr ⟨u, member, by simpa using nonzero⟩
    rw [apply, holds] at applied
    cases applied
    rfl

theorem decided?_unique {op : Operator} {u v w r : Word} (first : op.decided? u = some w)
    (second : op.decided? v = some r) : w = r := by
  have left := decided?_eq_some_iff.mp first
  have right := decided?_eq_some_iff.mp second
  rcases left with ⟨rfl, _, rfl⟩ | ⟨rfl, _, rfl⟩ | ⟨rfl, _, rfl⟩ <;> simp_all

theorem whole_of_decided? {op : Operator} {u w : Word} (decides : op.decided? u = some w) :
    op ≠ add ∧ op ≠ mul := by
  rcases decided?_eq_some_iff.mp decides with ⟨rfl, _⟩ | ⟨rfl, _⟩ | ⟨rfl, _⟩ <;> decide

theorem decided?_again {op : Operator} (connective : op = and ∨ op = or) {u w : Word}
    (decides : op.decided? u = some w) : op.decided? w = some w := by
  have forms := decided?_eq_some_iff.mp decides
  rcases connective with rfl | rfl
  · obtain ⟨_, rfl⟩ : u = 0 ∧ w = 0 := by simpa using forms
    rfl
  · obtain ⟨_, rfl⟩ : u ≠ 0 ∧ w = 1 := by simpa using forms
    rfl

/-- A conjunction or a disjunction whose value decides another one has an operand that does. -/
theorem exists_decides {op : Operator} (connective : op = and ∨ op = or) {vs : List Word} {u w : Word}
    (applied : op.apply vs = .ok u) (decides : op.decided? u = some w) :
    ∃ x ∈ vs, op.decided? x = some w := by
  rcases connective with rfl | rfl
  · obtain ⟨rfl, rfl⟩ : u = 0 ∧ w = 0 := by simpa using decided?_eq_some_iff.mp decides
    cases all : vs.all (· ≠ 0) with
    | true =>
      rw [apply, all] at applied
      cases applied
    | false =>
      obtain ⟨x, member, zero⟩ := List.all_eq_false.mp all
      refine ⟨x, member, ?_⟩
      rw [decided?_eq_some_iff]
      simpa using zero
  · obtain ⟨nonzero, rfl⟩ : u ≠ 0 ∧ w = 1 := by simpa using decided?_eq_some_iff.mp decides
    cases any : vs.any (· ≠ 0) with
    | true =>
      obtain ⟨x, member, other⟩ := List.any_eq_true.mp any
      refine ⟨x, member, ?_⟩
      rw [decided?_eq_some_iff]
      simpa using other
    | false =>
      rw [apply, any] at applied
      cases applied
      exact absurd rfl nonzero

end Operator

end Intension
