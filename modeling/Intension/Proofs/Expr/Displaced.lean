import Intension.Proofs.Expr.Denotes
import Intension.Proofs.Expr.Rewritten

namespace Intension.Expr

/-- The operands of connectives are operators that give truth values. -/
def TruthOperands : Expr → Prop :=
  Everywhere (fun op args => op.isLogical → ∀ arg ∈ args, arg.isBoolean)

@[simp]
theorem truthOperands_leaf (l : Leaf) : TruthOperands (.leaf l) := .leaf l

theorem truthOperands_node {op : Operator} {args : List Expr} :
    TruthOperands (.node op args) ↔
      (op.isLogical → ∀ arg ∈ args, arg.isBoolean) ∧ ∀ arg ∈ args, TruthOperands arg :=
  everywhere_node

theorem TruthOperands.booleanNegations {e : Expr} (truths : e.TruthOperands) : e.BooleanNegations := by
  induction truths with
  | leaf l => exact .leaf l
  | node here below ih =>
    refine .node ?_ ih
    rintro rfl arg member
    exact isBoolean_iff.mp (here rfl arg member)

theorem Rewrite.truthOperands {a b : Expr} (rewrite : Rewrite a b) (truths : a.TruthOperands) :
    b.TruthOperands := by
  refine rewrite.everywhere ?_ truths
  clear rewrite truths
  intro op other args others rewrite truths logical
  obtain ⟨here, below⟩ := truthOperands_node.mp truths
  cases rewrite with
  | permuted symmetric perm => exact fun arg member => here logical arg (perm.mem_iff.mpr member)
  | spliced associative before inner after split =>
    subst split
    have deeper := truthOperands_node.mp (below _ List.mem_append_cons_self)
    exact forall_mem_spliced (here logical) (deeper.1 logical)
  | greater a b => cases logical
  | greaterEqual a b => cases logical
  | negated found a b => rename_i test; cases test <;> cases found <;> cases logical
  | doubleNegation a =>
    have inner := (truthOperands_node.mp (below _ (List.mem_singleton.mpr rfl))).2
    exact (truthOperands_node.mp (inner _ (List.mem_singleton.mpr rfl))).1 logical
  | distance a b => cases logical
  | operand before after split changed =>
    subst split
    refine forall_mem_replaced (here logical) ?_
    have boolean := here logical _ List.mem_append_cons_self
    rw [isBoolean_iff] at boolean ⊢
    rw [changed.category? (below _ List.mem_append_cons_self).booleanNegations, boolean]

theorem Rewrites.truthOperands {a b : Expr} (rewrites : Rewrites a b) (truths : a.TruthOperands) :
    b.TruthOperands := by
  induction rewrites with
  | refl => exact truths
  | tail _ last ih => exact last.truthOperands ih

theorem logical_of_decided? {op : Operator} {u w : Word} (decides : op.decided? u = some w) :
    op.isLogical := by
  rcases Operator.decided?_eq_some_iff.mp decides with ⟨rfl, _⟩ | ⟨rfl, _⟩ | ⟨rfl, _⟩ <;> rfl

/-- An expression at any place in another one. -/
inductive Within (e : Expr) : Expr → Prop
  | refl : Within e e
  | operand {op : Operator} {args : List Expr} {arg : Expr} (member : arg ∈ args) (below : Within e arg) :
      Within e (.node op args)

/-- A conjunction or a disjunction that an operand behind its first one decides. -/
inductive Displaced (read : Leaf → Word) : Expr → Prop
  | behind {op : Operator} {first arg : Expr} {others : List Expr} {u w : Word}
      (connective : op = .and ∨ op = .or) (member : arg ∈ others) (value : Denotes read arg u)
      (decides : op.decided? u = some w) : Displaced read (.node op (first :: others))

/-- The faults that an expression can end with in place of its value: a sum or a product overflows, or
    a connective evaluates an operand that the one to decide it stands behind. -/
inductive Excused (read : Leaf → Word) (e : Expr) : Fault → Prop
  | overflow {op : Operator} (fold : op = .add ∨ op = .mul) : Excused read e (.overflow op)
  | displaced {s : Expr} {fault : Fault} (within : Within s e) (displaced : Displaced read s)
      (faults : s.lazy read = .error fault) : Excused read e fault

variable {α β : Type} {read : Leaf → Word} {allowed other : Fault → Prop}

theorem Excused.operand {op : Operator} {args : List Expr} {arg : Expr} (member : arg ∈ args)
    {fault : Fault} (excused : Excused read arg fault) : Excused read (.node op args) fault := by
  cases excused with
  | overflow fold => exact .overflow fold
  | displaced within displaced faults => exact .displaced (.operand member within) displaced faults

/-- A computation has the value, or one of the faults that are allowed in its place. -/
def Settles (allowed : Fault → Prop) (x : Except Fault α) (v : α) : Prop :=
  x = .ok v ∨ ∃ fault, allowed fault ∧ x = .error fault

theorem Settles.mono {x : Except Fault α} {v : α} (settles : Settles allowed x v)
    (wider : ∀ fault, allowed fault → other fault) : Settles other x v := by
  rcases settles with value | ⟨fault, allows, faults⟩
  · exact .inl value
  · exact .inr ⟨fault, wider fault allows, faults⟩

theorem Settles.bind {x : Except Fault α} {v : α} (first : Settles allowed x v)
    {k : α → Except Fault β} {w : β} (rest : Settles allowed (k v) w) : Settles allowed (x >>= k) w := by
  rcases first with rfl | ⟨fault, allows, rfl⟩
  · exact rest
  · exact .inr ⟨fault, allows, rfl⟩

theorem settles_list {es : List Expr}
    (each : ∀ e ∈ es, ∀ v, Denotes read e v → Settles allowed (e.lazy read) v) {vs : List Word}
    (values : List.Forall₂ (Denotes read) es vs) : Settles allowed (lazyList read es) vs := by
  induction values with
  | nil => exact .inl rfl
  | cons first _ ih =>
    have head := each _ (by simp) _ first
    have rest := ih (fun e member => each e (List.mem_cons_of_mem _ member))
    exact head.bind (rest.bind (.inl rfl))

/-- An operand that decides a connective gives it its value from the front. From behind, either the
    value comes out all the same, or something that is evaluated before has none. -/
theorem settles_decided {op : Operator} {first arg : Expr} {others : List Expr} (plain : Plain op)
    (valid : WellFormed (.node op (first :: others))) (boolean : op.isLogical → first.isBoolean)
    (member : arg ∈ first :: others) (antecedent : op = .imp → (first :: others).head? = some arg)
    {u v : Word} (operand : Denotes read arg u) (decides : op.decided? u = some v)
    (settles : Settles (Excused read (.node op (first :: others))) (arg.lazy read) u) :
    Settles (Excused read (.node op (first :: others))) (lazy read (.node op (first :: others))) v := by
  by_cases leads : arg = first
  · subst leads
    rw [lazy_plain read plain]
    refine settles.bind ?_
    rw [if_pos (boolean (logical_of_decided? decides)), decides]
    exact .inl rfl
  · cases found : lazy read (.node op (first :: others)) with
    | ok r =>
      have again : Expr.value true read (.node op (first :: others)) = .ok r := found
      have value := Denotes.decided member antecedent operand decides
      rw [value.unique valid (denotes_of_value valid again)]
      exact .inl rfl
    | error fault =>
      have connective : op = .and ∨ op = .or := by
        rcases Operator.decided?_eq_some_iff.mp decides with ⟨rfl, _⟩ | ⟨rfl, _⟩ | ⟨rfl, _⟩
        · exact .inl rfl
        · exact .inr rfl
        · exact absurd (Option.some.inj (antecedent rfl)).symm leads
      have behind := (List.mem_cons.mp member).resolve_left leads
      exact .inr ⟨fault, .displaced .refl (.behind connective behind operand decides) found, rfl⟩

theorem settles_operands {op : Operator} {first : Expr} {others : List Expr} (plain : Plain op)
    (arity : op.arity.accepts (first :: others).length) {vs : List Word} {v : Word}
    (values : List.Forall₂ (Denotes read) (first :: others) vs) (gives : op.Gives vs v)
    (settles : ∀ arg ∈ first :: others, ∀ u, Denotes read arg u →
      Settles (Excused read (.node op (first :: others))) (arg.lazy read) u) :
    Settles (Excused read (.node op (first :: others))) (lazy read (.node op (first :: others))) v := by
  rw [values.length_eq] at arity
  obtain ⟨u, us, head, rest, rfl⟩ := List.forall₂_cons_left_iff.mp values
  rw [lazy_plain read plain]
  refine (settles first (by simp) u head).bind ?_
  split
  · rename_i w decides
    split at decides
    · have applied := gives.applied (Operator.whole_of_decided? decides)
      rw [Operator.apply_of_decided? decides applied]
      exact .inl rfl
    · cases decides
  · refine (settles_list (fun arg member => settles arg (List.mem_cons_of_mem _ member)) rest).bind ?_
    rcases Operator.apply_of_gives plain arity gives with applied | ⟨fold, overflows⟩
    · exact .inl applied
    · exact .inr ⟨_, .overflow fold, overflows⟩

/-- With short circuits, an expression whose connectives are of truth values has its value, or a fault
    that is excused. -/
theorem settles_of_denotes {e : Expr} (valid : e.WellFormed) (truths : e.TruthOperands) {v : Word}
    (value : Denotes read e v) : Settles (Excused read e) (e.lazy read) v := by
  induction valid generalizing v with
  | leaf concrete =>
    cases value
    exact .inl rfl
  | noMembers =>
    rw [value.of_noMembers]
    exact .inl rfl
  | test tests head rest ihFirst ihRest =>
    rename_i op tested members
    have below := (truthOperands_node.mp truths).2
    have deeper := (truthOperands_node.mp (below (.node .set members) (by simp))).2
    obtain ⟨u, vs, first, others, found⟩ := value.of_test tests
    rw [show lazy read (.node op [tested, .node .set members]) = _ from value_test true read tests _ _]
    refine Settles.bind ((ihFirst (below _ (by simp)) first).mono fun _ => .operand (by simp)) ?_
    refine Settles.bind (settles_list ?_ others) (.inl found)
    intro member inside w operand
    refine (ihRest member inside (deeper member inside) operand).mono ?_
    intro fault excused
    exact .operand (List.mem_cons_of_mem _ List.mem_cons_self) (.operand inside excused)
  | operator plain arity each ih =>
    rename_i op args
    obtain ⟨here, below⟩ := truthOperands_node.mp truths
    have valid := WellFormed.operator plain arity each
    have settles : ∀ arg ∈ args, ∀ u, Denotes read arg u →
        Settles (Excused read (.node op args)) (arg.lazy read) u := fun arg member u operand =>
      (ih arg member (below arg member) operand).mono fun _ => .operand member
    obtain ⟨first, others, rfl⟩ := List.exists_cons_of_ne_nil (plain.args_ne_nil arity)
    rcases value.of_plain plain with ⟨arg, member, antecedent, u, operand, decides⟩ | ⟨vs, values, gives⟩
    · exact settles_decided plain valid (fun logical => here logical first (by simp)) member antecedent
        operand decides (settles arg member u operand)
    · exact settles_operands plain arity values gives settles

end Intension.Expr
