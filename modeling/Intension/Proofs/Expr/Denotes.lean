import Intension.Proofs.Expr.Value
import Intension.Proofs.Operator.Gives
import Intension.Proofs.Pointwise

namespace Intension

namespace Expr

/-- The value of an expression in which any operand can decide a conjunction or a disjunction, and a sum
    or a product may leave the range on its way to a word. -/
inductive Denotes (read : Leaf → Word) : Expr → Word → Prop
  | leaf (l : Leaf) : Denotes read (.leaf l) (read l)
  | noMembers : Denotes read (.node .set []) 0
  | test {op : Operator} {tested : Expr} {members : List Expr} {u w : Word} {vs : List Word}
      (tests : op = .mem ∨ op = .notMem) (first : Denotes read tested u)
      (rest : List.Forall₂ (Denotes read) members vs)
      (found : membership (decide (op = .mem)) u vs = .ok w) :
      Denotes read (.node op [tested, .node .set members]) w
  | decided {op : Operator} {args : List Expr} {arg : Expr} {u w : Word} (member : arg ∈ args)
      (antecedent : op = .imp → args.head? = some arg) (value : Denotes read arg u)
      (decides : op.decided? u = some w) : Denotes read (.node op args) w
  | operator {op : Operator} {args : List Expr} {vs : List Word} {w : Word} (plain : Plain op)
      (each : List.Forall₂ (Denotes read) args vs) (gives : op.Gives vs w) :
      Denotes read (.node op args) w

variable {read : Leaf → Word}

namespace Denotes

theorem of_test {op : Operator} (tests : op = .mem ∨ op = .notMem) {tested : Expr} {members : List Expr}
    {w : Word} (value : Denotes read (.node op [tested, .node .set members]) w) :
    ∃ u vs, Denotes read tested u ∧ List.Forall₂ (Denotes read) members vs ∧
      membership (decide (op = .mem)) u vs = .ok w := by
  cases value with
  | test _ first rest found => exact ⟨_, _, first, rest, found⟩
  | decided member antecedent value decides => rcases tests with rfl | rfl <;> cases decides
  | operator plain each gives =>
    obtain ⟨_, notMem, notNotMem⟩ := plain
    rcases tests with same | same <;> contradiction

theorem of_plain {op : Operator} (plain : Plain op) {args : List Expr} {w : Word}
    (value : Denotes read (.node op args) w) :
    (∃ arg ∈ args, (op = .imp → args.head? = some arg) ∧
        ∃ u, Denotes read arg u ∧ op.decided? u = some w) ∨
      ∃ vs, List.Forall₂ (Denotes read) args vs ∧ op.Gives vs w := by
  obtain ⟨notSet, notMem, notNotMem⟩ := plain
  cases value with
  | noMembers => contradiction
  | test tests first rest found => rcases tests with same | same <;> contradiction
  | decided member antecedent value decides => exact .inl ⟨_, member, antecedent, _, value, decides⟩
  | operator plain each gives => exact .inr ⟨_, each, gives⟩

theorem of_undecided {op : Operator} (plain : Plain op) (undecided : ∀ u, op.decided? u = none)
    {args : List Expr} {w : Word} (value : Denotes read (.node op args) w) :
    ∃ vs, List.Forall₂ (Denotes read) args vs ∧ op.Gives vs w := by
  rcases value.of_plain plain with ⟨_, _, _, u, _, decides⟩ | operands
  · rw [undecided u] at decides
    cases decides
  · exact operands

theorem of_single {op : Operator} (plain : Plain op) (undecided : ∀ u, op.decided? u = none) {a : Expr}
    {w : Word} (value : Denotes read (.node op [a]) w) : ∃ u, Denotes read a u ∧ op.Gives [u] w := by
  obtain ⟨vs, each, gives⟩ := value.of_undecided plain undecided
  obtain ⟨u, _, first, rest, rfl⟩ := List.forall₂_cons_left_iff.mp each
  obtain rfl := List.forall₂_nil_left_iff.mp rest
  exact ⟨u, first, gives⟩

theorem of_pair {op : Operator} (plain : Plain op) (undecided : ∀ u, op.decided? u = none) {a b : Expr}
    {w : Word} (value : Denotes read (.node op [a, b]) w) :
    ∃ u v, Denotes read a u ∧ Denotes read b v ∧ op.Gives [u, v] w := by
  obtain ⟨vs, each, gives⟩ := value.of_undecided plain undecided
  obtain ⟨u, _, first, others, rfl⟩ := List.forall₂_cons_left_iff.mp each
  obtain ⟨v, _, second, rest, rfl⟩ := List.forall₂_cons_left_iff.mp others
  obtain rfl := List.forall₂_nil_left_iff.mp rest
  exact ⟨u, v, first, second, gives⟩

theorem pair {op : Operator} (plain : Plain op) {a b : Expr} {u v w : Word} (first : Denotes read a u)
    (second : Denotes read b v) (gives : op.Gives [u, v] w) : Denotes read (.node op [a, b]) w :=
  .operator plain (.cons first (.cons second .nil)) gives

theorem truth {e : Expr} (valid : e.WellFormed) (boolean : e.category? = some .boolean) {v : Word}
    (value : Denotes read e v) : v = 0 ∨ v = 1 := by
  cases value with
  | leaf l => cases l <;> cases boolean
  | noMembers => cases boolean
  | test membership first rest found => exact membership_truth found
  | decided member antecedent value decides => exact Operator.decided?_truth decides
  | operator plain each gives =>
    rename_i op args vs
    rcases gives with applied | ⟨fold, _⟩
    · exact Operator.apply_truth (decide_eq_true (Option.some.inj boolean)) applied
    · rcases fold with rfl | rfl <;> cases boolean

theorem of_noMembers {w : Word} (value : Denotes read (.node .set []) w) : w = 0 := by
  cases value with
  | noMembers => rfl
  | decided member => cases member
  | operator plain each gives => exact absurd rfl plain.1

/-- An operand that decides an operator gives it the value that it has on all its operands. -/
theorem decides_operands {op : Operator} {args : List Expr} {arg : Expr} {u w r : Word}
    (value : Denotes read arg u)
    (unique : ∀ arg ∈ args, ∀ {u v : Word}, Denotes read arg u → Denotes read arg v → u = v)
    (member : arg ∈ args) (antecedent : op = .imp → args.head? = some arg)
    (decides : op.decided? u = some w) {vs : List Word} (each : List.Forall₂ (Denotes read) args vs)
    (gives : op.Gives vs r) : r = w := by
  have applied := gives.applied (Operator.whole_of_decided? decides)
  rcases Operator.decided?_eq_some_iff.mp decides with ⟨rfl, _⟩ | ⟨rfl, _⟩ | ⟨rfl, _⟩
  · obtain ⟨v, inside, other⟩ := exists_of_forall₂ each member
    obtain rfl := unique arg member value other
    exact Operator.apply_of_mem (.inl rfl) decides inside applied
  · obtain ⟨v, inside, other⟩ := exists_of_forall₂ each member
    obtain rfl := unique arg member value other
    exact Operator.apply_of_mem (.inr rfl) decides inside applied
  · obtain ⟨others, rfl⟩ := List.head?_eq_some_iff.mp (antecedent rfl)
    obtain ⟨v, rest, other, _, rfl⟩ := List.forall₂_cons_left_iff.mp each
    obtain rfl := unique arg member value other
    exact Operator.apply_of_decided? decides applied

theorem unique {e : Expr} (valid : e.WellFormed) {v w : Word} (first : Denotes read e v)
    (second : Denotes read e w) : v = w := by
  induction valid generalizing v w with
  | leaf concrete =>
    cases first
    cases second
    rfl
  | noMembers => rw [first.of_noMembers, second.of_noMembers]
  | test tests head rest ihFirst ihRest =>
    obtain ⟨u, us, tested, members, found⟩ := first.of_test tests
    obtain ⟨x, xs, again, others, result⟩ := second.of_test tests
    obtain rfl := ihFirst tested again
    obtain rfl := forall₂_unique (fun member inside u v left right => ihRest member inside left right)
      members others
    rw [found] at result
    exact Except.ok.inj result
  | operator plain arity each ih =>
    rcases first.of_plain plain with ⟨arg, member, antecedent, u, left, decides⟩ | ⟨us, left, gives⟩
    · rcases second.of_plain plain with ⟨_, _, _, x, _, decided⟩ | ⟨xs, right, total⟩
      · exact Operator.decided?_unique decides decided
      · exact (left.decides_operands ih member antecedent decides right total).symm
    · rcases second.of_plain plain with ⟨arg, member, antecedent, x, right, decides⟩ | ⟨xs, right, total⟩
      · exact right.decides_operands ih member antecedent decides left gives
      · obtain rfl := forall₂_unique (fun arg member u v left right => ih arg member left right) left right
        rw [left.length_eq] at arity
        have same := (Operator.exact_of_gives plain arity gives).symm.trans
          (Operator.exact_of_gives plain arity total)
        exact Int64.toInt_inj.mp (Option.some.inj same)

end Denotes

theorem denotes_list {shortCircuit : Bool} {es : List Expr}
    (each : ∀ e ∈ es, ∀ v, e.value shortCircuit read = .ok v → Denotes read e v) {vs : List Word}
    (found : valueList shortCircuit read es = .ok vs) : List.Forall₂ (Denotes read) es vs := by
  induction es generalizing vs with
  | nil =>
    rw [valueList_nil] at found
    cases found
    exact .nil
  | cons e es ih =>
    rw [valueList_cons] at found
    obtain ⟨v, first, found⟩ := bind_eq_ok found
    obtain ⟨rest, others, found⟩ := bind_eq_ok found
    cases found
    exact .cons (each e (by simp) v first)
      (ih (fun other member => each other (List.mem_cons_of_mem _ member)) others)

/-- What an expression evaluates to, with or without short circuits, is its value. -/
theorem denotes_of_value {e : Expr} (valid : e.WellFormed) {shortCircuit : Bool} {v : Word}
    (found : e.value shortCircuit read = .ok v) : Denotes read e v := by
  induction valid generalizing v with
  | leaf concrete =>
    rw [value_leaf] at found
    cases found
    exact .leaf _
  | noMembers =>
    rw [value_set] at found
    cases found
    exact .noMembers
  | test tests first rest ihFirst ihRest =>
    rw [value_test shortCircuit read tests] at found
    obtain ⟨u, tested, found⟩ := bind_eq_ok found
    obtain ⟨vs, members, found⟩ := bind_eq_ok found
    exact .test tests (ihFirst tested) (denotes_list (fun e member v => ihRest e member) members) found
  | operator plain arity each ih =>
    obtain ⟨first, others, rfl⟩ := List.exists_cons_of_ne_nil (plain.args_ne_nil arity)
    rw [value_plain shortCircuit read plain] at found
    obtain ⟨u, value, found⟩ := bind_eq_ok found
    have head := ih first (by simp) value
    split at found
    · rename_i w decides
      cases found
      split at decides
      · exact .decided List.mem_cons_self (fun _ => rfl) head decides
      · cases decides
    · obtain ⟨vs, rest, found⟩ := bind_eq_ok found
      refine .operator plain (.cons head (denotes_list ?_ rest)) (.inl found)
      exact fun e member v => ih e (List.mem_cons_of_mem _ member)

end Expr

end Intension
