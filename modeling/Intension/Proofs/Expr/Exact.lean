import Intension.Proofs.Expr.Rewritten
import Intension.Proofs.Expr.Value
import Intension.Proofs.Operator.Flags

namespace Intension.Expr

mutual

/-- The value of an expression over integers of any size, where all its operands have one. -/
def exact (read : Leaf → Word) : Expr → Option Int
  | .leaf l => some (read l).toInt
  | .node .set _ => some 0
  | .node .mem [tested, .node .set members] =>
    (exact read tested).bind fun v => (exactList read members).map fun vs => truth (v ∈ vs)
  | .node .notMem [tested, .node .set members] =>
    (exact read tested).bind fun v => (exactList read members).map fun vs => truth (v ∉ vs)
  | .node op args => (exactList read args).bind op.exact

def exactList (read : Leaf → Word) : List Expr → Option (List Int)
  | [] => some []
  | e :: es => (exact read e).bind fun v => (exactList read es).map fun vs => v :: vs

end

variable (read : Leaf → Word)

theorem exact_plain {op : Operator} (plain : Plain op) (args : List Expr) :
    exact read (.node op args) = (exactList read args).bind op.exact := by
  obtain ⟨notSet, notMem, notNotMem⟩ := plain
  cases op <;> first | contradiction | rfl

theorem exact_test {op : Operator} (test : op = .mem ∨ op = .notMem) (tested : Expr)
    (members : List Expr) :
    exact read (.node op [tested, .node .set members]) =
      (exact read tested).bind fun v => (exactList read members).map fun vs =>
        truth (v ∈ vs ↔ op = .mem) := by
  rcases test with rfl | rfl <;> simp [exact]

theorem length_exactList {es : List Expr} {vs : List Int} (found : exactList read es = some vs) :
    vs.length = es.length := by
  induction es generalizing vs with
  | nil =>
    cases found
    rfl
  | cons e es ih =>
    obtain ⟨v, _, found⟩ := Option.bind_eq_some_iff.mp found
    obtain ⟨ws, others, rfl⟩ := Option.map_eq_some_iff.mp found
    rw [List.length_cons, ih others, List.length_cons]

theorem exactList_append (as bs : List Expr) :
    exactList read (as ++ bs) =
      (exactList read as).bind fun vs => (exactList read bs).map fun ws => vs ++ ws := by
  induction as with
  | nil => simp [exactList]
  | cons a as ih =>
    rw [List.cons_append, exactList, ih, exactList]
    cases exact read a with
    | none => rfl
    | some v => cases exactList read as <;> cases exactList read bs <;> rfl

theorem exactList_perm {α : Type} {as bs : List Expr} (perm : as.Perm bs) (f : List Int → Option α)
    (same : ∀ {vs ws : List Int}, vs.Perm ws → f vs = f ws) :
    (exactList read as).bind f = (exactList read bs).bind f := by
  induction perm generalizing f with
  | nil => rfl
  | cons a perm ih =>
    rw [exactList, exactList]
    cases exact read a with
    | none => rfl
    | some v =>
      have others := ih (fun vs => f (v :: vs)) (fun perm => same (perm.cons v))
      simpa [Option.bind_map] using others
  | swap a b es =>
    simp only [exactList]
    cases exact read a <;> cases exact read b <;> cases exactList read es <;>
      simp only [Option.bind_none, Option.bind_some, Option.map_none, Option.map_some]
    exact same (.swap _ _ _)
  | trans _ _ first second => exact (first f same).trans (second f same)

theorem strictList_realizes {es : List Expr}
    (each : ∀ e ∈ es, Realizes Int64.toInt (e.strict read) (e.exact read)) :
    Realizes (List.map Int64.toInt) (strictList read es) (exactList read es) := by
  induction es with
  | nil => exact .value []
  | cons e es ih =>
    have others := ih (fun other member => each other (List.mem_cons_of_mem _ member))
    refine (each e (by simp)).bind (h := fun v => (exactList read es).map fun vs => v :: vs) ?_
    intro v _
    rw [Option.map_eq_bind]
    refine others.bind (h := fun vs => some (v.toInt :: vs)) ?_
    intro vs _
    exact .value (v :: vs)

/-- Over words, an expression has its exact value unless it overflows. -/
theorem strict_realizes {e : Expr} (valid : e.WellFormed) :
    Realizes Int64.toInt (e.strict read) (e.exact read) := by
  induction valid with
  | leaf concrete => exact .value _
  | noMembers => exact .value 0
  | test membership first rest ihFirst ihRest =>
    rename_i op tested members
    have tests : strict read (.node op [tested, .node .set members]) = _ :=
      value_test false read membership tested members
    rw [exact_test read membership, tests]
    refine ihFirst.bind ?_
    intro v _
    rw [Option.map_eq_bind]
    refine (strictList_realizes read ihRest).bind ?_
    intro vs _
    exact Operator.membership_realizes (op = .mem) v vs
  | operator plain arity each ih =>
    rename_i op args
    rw [strict_plain read plain, exact_plain read plain]
    refine (strictList_realizes read ih).bind ?_
    intro vs found
    have length := length_valueList (show valueList false read args = .ok vs from found)
    exact Operator.apply_realizes plain (by rwa [length])

theorem exact_truth {e : Expr} (valid : e.WellFormed) (boolean : e.category? = some .boolean) {n : Int}
    (found : exact read e = some n) : n = 0 ∨ n = 1 := by
  cases valid with
  | leaf concrete => rename_i l; cases l <;> cases boolean
  | noMembers => cases boolean
  | test membership first rest =>
    rw [exact_test read membership] at found
    obtain ⟨v, _, found⟩ := Option.bind_eq_some_iff.mp found
    obtain ⟨vs, _, rfl⟩ := Option.map_eq_some_iff.mp found
    exact truth_cases _
  | operator plain arity each =>
    rw [exact_plain read plain] at found
    obtain ⟨vs, _, found⟩ := Option.bind_eq_some_iff.mp found
    exact Operator.exact_truth (Option.some.inj boolean) found

theorem exact_pair {op : Operator} (plain : Plain op) (a b : Expr) :
    exact read (.node op [a, b]) =
      (exact read a).bind fun v => (exact read b).bind fun w => op.exact [v, w] := by
  rw [exact_plain read plain]
  simp only [exactList]
  cases exact read a <;> cases exact read b <;> rfl

theorem exact_single {op : Operator} (plain : Plain op) (a : Expr) :
    exact read (.node op [a]) = (exact read a).bind fun v => op.exact [v] := by
  rw [exact_plain read plain]
  simp only [exactList]
  cases exact read a <;> rfl

theorem exactList_replaced {a b : Expr} (same : exact read b = exact read a) (before after : List Expr) :
    exactList read (before ++ b :: after) = exactList read (before ++ a :: after) := by
  rw [exactList_append, exactList_append, exactList, exactList, same]

theorem exactList_of_set {α : Type} {members others : List Expr}
    (rewrite : Rewrite (.node .set members) (.node .set others))
    (each : ∀ a ∈ members, ∀ c, Rewrite a c → exact read c = exact read a) (f : List Int → Option α)
    (same : ∀ {vs ws : List Int}, vs.Perm ws → f vs = f ws) :
    (exactList read others).bind f = (exactList read members).bind f := by
  obtain ⟨_, equal, perm | ⟨before, a, after, c, rfl, changed, below⟩⟩ := rewrite.of_set
  · cases equal
    exact (exactList_perm read perm f same).symm
  · cases equal
    subst changed
    rw [exactList_replaced read (each a List.mem_append_cons_self c below)]

theorem exact_spliced {op : Operator} (associative : op.isAssociative) {inner : List Expr}
    (nonempty : inner ≠ []) (before after : List Expr) :
    exact read (.node op (before ++ inner ++ after)) =
      exact read (.node op (before ++ .node op inner :: after)) := by
  have plain := plain_of_associative associative
  rw [exact_plain read plain, exact_plain read plain, List.append_assoc, exactList_append,
    exactList_append read before, exactList_append read inner, exactList, exact_plain read plain]
  cases exactList read before with
  | none => rfl
  | some xs =>
    cases found : exactList read inner with
    | none => rfl
    | some ys =>
      have operands : ys ≠ [] := by
        have length := length_exactList read found
        have positive := List.length_pos_iff.mpr nonempty
        exact List.length_pos_iff.mp (by omega)
      obtain ⟨v, value, spliced⟩ := Operator.exact_splice associative operands
      cases exactList read after with
      | none => simp [value]
      | some zs => simp [value, spliced]

theorem exact_negated {test opposite : Operator} (found : test.negation? = some opposite) {a b : Expr}
    (valid : WellFormed (.node test [a, b])) :
    exact read (.node opposite [a, b]) = exact read (.node .not [.node test [a, b]]) := by
  rw [exact_single read (by decide)]
  cases valid with
  | test membership first rest =>
    rename_i members
    have other : opposite = .mem ∨ opposite = .notMem := by
      rcases membership with rfl | rfl <;> cases found <;> simp
    have exchanged : opposite = .mem ↔ ¬ test = .mem := by
      rcases membership with rfl | rfl <;> cases found <;> simp
    rw [exact_test read membership, exact_test read other]
    cases exact read a with
    | none => rfl
    | some v =>
      cases exactList read members with
      | none => rfl
      | some vs =>
        refine congrArg some (truth_congr ?_)
        rw [truth_eq_zero, exchanged]
        tauto
  | operator plain arity each =>
    rw [exact_pair read plain, exact_pair read (plain_negated found plain)]
    cases exact read a with
    | none => rfl
    | some v =>
      cases exact read b with
      | none => rfl
      | some w =>
        obtain ⟨n, holds, fails⟩ := Operator.exact_negation found plain v w
        simp only [Option.bind_some, holds, fails]
        rfl

theorem exact_of_rewrite {a b : Expr} (rewrite : Rewrite a b) (constants : ∀ k, read (.const k) = k)
    (valid : a.WellFormed) (guarded : a.BooleanNegations) : b.exact read = a.exact read := by
  -- The induction is on well-formedness, since a set with members has no value of its own: a rule
  -- inside one is met at the test that it belongs to.
  induction valid generalizing b with
  | leaf concrete => cases rewrite
  | noMembers =>
    obtain ⟨others, rfl, _⟩ := rewrite.of_set
    rfl
  | test membership first rest ihFirst ihRest =>
    rename_i op tested members
    have below := (booleanNegations_node.mp guarded).2
    rcases rewrite.of_test membership with ⟨other, rfl, inner⟩ | ⟨others, rfl, inner⟩
    · rw [exact_test read membership, exact_test read membership, ihFirst inner (below tested (by simp))]
    · have deeper := (booleanNegations_node.mp (below (.node .set members) (by simp))).2
      rw [exact_test read membership, exact_test read membership]
      cases exact read tested with
      | none => rfl
      | some v =>
        simp only [Option.bind_some, Option.map_eq_bind]
        have kept : ∀ a ∈ members, ∀ c, Rewrite a c → exact read c = exact read a :=
          fun a member c rewrite => ihRest a member rewrite (deeper a member)
        refine exactList_of_set read inner kept _ ?_
        intro vs ws order
        exact congrArg some (truth_congr (by rw [order.mem_iff]))
  | operator plain arity each ih =>
    obtain ⟨_, below⟩ := booleanNegations_node.mp guarded
    cases rewrite with
    | permuted symmetric perm =>
      rw [exact_plain read plain, exact_plain read plain]
      exact (exactList_perm read perm _ (Operator.exact_perm symmetric)).symm
    | spliced associative before inner after split =>
      subst split
      have deeper := (each _ List.mem_append_cons_self).operands plain
      exact exact_spliced read associative (plain.args_ne_nil deeper.1) before after
    | greater a b =>
      rw [exact_pair read (by decide), exact_pair read (by decide)]
      cases exact read a <;> cases exact read b <;> simp [Operator.exact]
    | greaterEqual a b =>
      rw [exact_pair read (by decide), exact_pair read (by decide)]
      cases exact read a <;> cases exact read b <;> simp [Operator.exact]
    | negated found a b => exact exact_negated read found (each _ (List.mem_singleton.mpr rfl))
    | doubleNegation a =>
      have inner := (each _ (List.mem_singleton.mpr rfl)).operands plain
      have boolean := (booleanNegations_node.mp (below _ (List.mem_singleton.mpr rfl))).1 rfl
      rw [exact_single read plain, exact_single read plain]
      cases found : exact read _ with
      | none => rfl
      | some n =>
        have truth := exact_truth read (inner.2 _ (List.mem_singleton.mpr rfl))
          (boolean _ (List.mem_singleton.mpr rfl)) found
        rcases truth with rfl | rfl <;> rfl
    | distance a b =>
      rw [exact_pair read (by decide), exact_single read plain, exact_pair read (by decide)]
      cases exact read a <;> cases exact read b <;> rfl
    | opposite found =>
      rw [exact_single read plain]
      simp only [exact, constants, Option.bind_some, Operator.exact, Word.ofInt?_eq_some_iff.mp found]
    | operand before after split changed =>
      subst split
      have kept := ih _ List.mem_append_cons_self changed (below _ List.mem_append_cons_self)
      rw [exact_plain read plain, exact_plain read plain, exactList_replaced read kept]

theorem exact_of_rewrites {a b : Expr} (rewrites : Rewrites a b) (constants : ∀ k, read (.const k) = k)
    (valid : a.WellFormed) (guarded : a.BooleanNegations) : b.exact read = a.exact read := by
  induction rewrites with
  | refl => rfl
  | tail before last ih =>
    rw [exact_of_rewrite read last constants (Rewrites.wellFormed before valid)
      (Rewrites.booleanNegations before guarded), ih]

end Intension.Expr
