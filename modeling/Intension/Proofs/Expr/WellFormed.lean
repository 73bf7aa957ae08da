import Intension.Program.Basic

namespace Intension

namespace Expr

/-- What holds of every operator in an expression with its operands. -/
inductive Everywhere (holds : Operator → List Expr → Prop) : Expr → Prop
  | leaf (l : Leaf) : Everywhere holds (.leaf l)
  | node {op : Operator} {args : List Expr} (here : holds op args)
      (below : ∀ arg ∈ args, Everywhere holds arg) : Everywhere holds (.node op args)

theorem everywhere_node {holds : Operator → List Expr → Prop} {op : Operator} {args : List Expr} :
    Everywhere holds (.node op args) ↔ holds op args ∧ ∀ arg ∈ args, Everywhere holds arg := by
  constructor
  · intro valid
    cases valid with
    | node here below => exact ⟨here, below⟩
  · rintro ⟨here, below⟩
    exact .node here below

/-- The operators whose instruction takes one value for each operand. -/
def Plain (op : Operator) : Prop := op ≠ .set ∧ op ≠ .mem ∧ op ≠ .notMem

instance (op : Operator) : Decidable (Plain op) :=
  inferInstanceAs (Decidable (op ≠ .set ∧ op ≠ .mem ∧ op ≠ .notMem))

/-- The expressions that have code, whatever slots their leaves get. A set that has members stands
    only behind the value that is tested against it. -/
inductive WellFormed : Expr → Prop
  | leaf {l : Leaf} (concrete : ∀ w, l ≠ .wild w) : WellFormed (.leaf l)
  | noMembers : WellFormed (.node .set [])
  | test {op : Operator} {tested : Expr} {members : List Expr} (membership : op = .mem ∨ op = .notMem)
      (first : WellFormed tested) (rest : ∀ member ∈ members, WellFormed member) :
      WellFormed (.node op [tested, .node .set members])
  | operator {op : Operator} {args : List Expr} (plain : Plain op)
      (arity : op.arity.accepts args.length) (each : ∀ arg ∈ args, WellFormed arg) :
      WellFormed (.node op args)

theorem mem_leavesList {l : Leaf} {es : List Expr} :
    l ∈ leavesList es ↔ ∃ e ∈ es, l ∈ e.leaves := by
  rw [leavesList_eq_flatMap, List.mem_flatMap]

theorem mem_leaves_node {l : Leaf} {op : Operator} {args : List Expr} :
    l ∈ (Expr.node op args).leaves ↔ ∃ arg ∈ args, l ∈ arg.leaves := mem_leavesList

theorem Plain.args_ne_nil {α : Type} {op : Operator} (plain : Plain op) {args : List α}
    (arity : op.arity.accepts args.length) : args ≠ [] := by
  rintro rfl
  obtain ⟨notSet, _, _⟩ := plain
  cases op <;> contradiction

theorem WellFormed.concrete {e : Expr} (valid : e.WellFormed) (w : Wildcard) : .wild w ∉ e.leaves := by
  induction valid with
  | leaf concrete =>
    intro member
    exact concrete w (List.mem_singleton.mp member).symm
  | noMembers => exact List.not_mem_nil
  | test membership first rest ihFirst ihRest =>
    intro member
    simp only [mem_leaves_node, List.mem_cons, List.not_mem_nil, or_false] at member
    obtain ⟨e, rfl | rfl, inside⟩ := member
    · exact ihFirst inside
    · obtain ⟨e, below, inside⟩ := mem_leaves_node.mp inside
      exact ihRest e below inside
  | operator plain arity each ih =>
    intro member
    obtain ⟨e, below, inside⟩ := mem_leaves_node.mp member
    exact ih e below inside

end Expr

end Intension
