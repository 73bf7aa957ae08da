import Intension.Proofs.Expr.Measure
import Intension.Proofs.Program.Slots

namespace Intension

theorem Wildcard.ofName?_name (w : Wildcard) : ofName? w.name = some w := by
  cases w <;> rfl

/-- The leaf that a token stands for. Slots are variables as far as the scope goes. -/
def Token.leaf? (scope : List Variable) : Token → Option Leaf
  | int k => some (.const k)
  | slot i =>
    match scope[i]? with
    | some v => some (.var v)
    | none => some (.param i)
  | var v => some (.var v)
  | op _ _ => none
  | unknown word => (Wildcard.ofName? word).map .wild

/-- A leaf that cannot be taken for a variable in scope. -/
def Leaf.Beyond (scope : List Variable) (l : Leaf) : Prop :=
  ∀ i, l = .param i → scope.length ≤ i

theorem Token.leaf?_ofLeaf {scope : List Variable} {l : Leaf} (beyond : l.Beyond scope) :
    (ofLeaf scope l).leaf? scope = some l := by
  cases l with
  | var v =>
    simp only [ofLeaf]
    cases found : scope.idxOf? v with
    | some i =>
      obtain ⟨bound, place, _⟩ := List.idxOf?_eq_some_iff.mp found
      simp only [leaf?, List.getElem?_eq_getElem bound, place]
    | none => rfl
  | const k => rfl
  | param i => simp only [ofLeaf, leaf?, List.getElem?_eq_none (beyond i rfl)]
  | wild w =>
    rw [ofLeaf, leaf?, Wildcard.ofName?_name]
    rfl

namespace Expr

/-- The expressions on a stack after a token, the last one first. An operator takes as many of them
    as it has operands. -/
def push (scope : List Variable) (stack : List Expr) : Token → Option (List Expr)
  | .op op count =>
    if count ≤ stack.length then some (.node op (stack.take count).reverse :: stack.drop count)
    else none
  | t => (t.leaf? scope).map (fun l => .leaf l :: stack)

/-- The expression that a stream was written for. -/
def ofTokens? (scope : List Variable) (ts : List Token) : Option Expr :=
  match ts.foldlM (push scope) [] with
  | some [e] => some e
  | _ => none

section Reader

variable {scope : List Variable}

theorem push_leaf {t : Token} {l : Leaf} (found : t.leaf? scope = some l) (stack : List Expr) :
    push scope stack t = some (.leaf l :: stack) := by
  cases t with
  | op op count => cases found
  | _ => simp only [push, found, Option.map_some]

theorem push_op (op : Operator) (args stack : List Expr) :
    push scope (args.reverse ++ stack) (.op op args.length) = some (.node op args :: stack) := by
  have enough : args.length ≤ (args.reverse ++ stack).length := by simp
  rw [push, if_pos enough, ← List.length_reverse, List.take_left, List.drop_left, List.reverse_reverse]

theorem foldlM_tokensList {es : List Expr}
    (each : ∀ e ∈ es, ∀ stack, (e.tokens scope).foldlM (push scope) stack = some (e :: stack))
    (stack : List Expr) :
    (tokensList scope es).foldlM (push scope) stack = some (es.reverse ++ stack) := by
  induction es generalizing stack with
  | nil => rfl
  | cons e es ih =>
    rw [tokensList, List.foldlM_append, each e List.mem_cons_self, Option.bind_eq_bind, Option.bind_some,
      ih (fun other member => each other (List.mem_cons_of_mem _ member)), List.reverse_cons,
      List.append_assoc, List.singleton_append]

/-- The stream of an expression leaves the expression, whatever lies on the stack. -/
theorem foldlM_tokens {e : Expr} (beyond : ∀ l ∈ e.leaves, l.Beyond scope) (stack : List Expr) :
    (e.tokens scope).foldlM (push scope) stack = some (e :: stack) := by
  induction e using Expr.induction generalizing stack with
  | leaf l =>
    rw [tokens, List.foldlM_cons, push_leaf (Token.leaf?_ofLeaf (beyond l (List.mem_singleton.mpr rfl)))]
    rfl
  | node op args ih =>
    have operands := foldlM_tokensList (fun arg member => ih arg member
      (fun l inside => beyond l (mem_leaves_node.mpr ⟨arg, member, inside⟩))) stack
    rw [tokens, List.foldlM_append, operands, Option.bind_eq_bind, Option.bind_some, List.foldlM_cons,
      push_op]
    rfl

theorem ofTokens?_tokens {e : Expr} (beyond : ∀ l ∈ e.leaves, l.Beyond scope) :
    ofTokens? scope (e.tokens scope) = some e := by
  rw [ofTokens?, foldlM_tokens beyond]

theorem tokens_inj {a b : Expr} (left : ∀ l ∈ a.leaves, l.Beyond scope)
    (right : ∀ l ∈ b.leaves, l.Beyond scope) : a.tokens scope = b.tokens scope ↔ a = b := by
  constructor
  · intro same
    have read := ofTokens?_tokens left
    rw [same, ofTokens?_tokens right] at read
    exact (Option.some.inj read).symm
  · rintro rfl
    rfl

end Reader

theorem beyond_nil (l : Leaf) : l.Beyond [] := fun i _ => Nat.zero_le i

theorem beyond_of_parameters {e : Expr} (noParameters : e.parameters = []) (scope : List Variable) :
    ∀ l ∈ e.leaves, l.Beyond scope := by
  rintro l member i rfl
  have used := mem_parameters.mpr member
  rw [noParameters] at used
  contradiction

theorem length_tokens (scope : List Variable) (e : Expr) : (e.tokens scope).length = e.size := by
  induction e using Expr.induction with
  | leaf l => rfl
  | node op args ih =>
    rw [tokens, List.length_append, tokensList_eq_flatMap, length_flatMap_eq_sizeList ih,
      List.length_singleton, size, Nat.add_comm]

/-- A stream alone determines its expression. Against a scope, which may repeat variables, this holds
    without parameters, since these are written like the variables in scope. -/
theorem tokens_eq_iff :
    (∀ a b : Expr, a.tokens [] = b.tokens [] ↔ a = b) ∧
      (∀ (scope : List Variable) (a b : Expr), a.parameters = [] → b.parameters = [] →
        (a.tokens scope = b.tokens scope ↔ a = b)) ∧
      ∀ (scope : List Variable) (e : Expr), (e.tokens scope).length = e.size := by
  refine ⟨?_, ?_, length_tokens⟩
  · intro a b
    exact tokens_inj (fun l _ => beyond_nil l) (fun l _ => beyond_nil l)
  · intro scope a b left right
    exact tokens_inj (beyond_of_parameters left scope) (beyond_of_parameters right scope)

example : (leaf (.param 0)).tokens [⟨4, "x"⟩] = (leaf (.var ⟨4, "x"⟩)).tokens [⟨4, "x"⟩] := by decide

def summedTail : Expr :=
  .node .add [.leaf (.var ⟨4, "x"⟩), .node .set [], .node .add [.leaf (.wild .any)]]

/-- The leaves of the other sum in their order, under other operators. -/
def summedFront : Expr :=
  .node .add [.node .add [.leaf (.var ⟨4, "x"⟩), .node .set []], .leaf (.wild .any)]

theorem tokens_eq_iff_summedTail :
    summedTail.parameters = [] ∧ summedFront.parameters = [] ∧
      (summedTail.tokens [⟨7, "y"⟩, ⟨4, "x"⟩] = summedFront.tokens [⟨7, "y"⟩, ⟨4, "x"⟩] ↔
        summedTail = summedFront) ∧
      summedTail ≠ summedFront ∧
      (summedTail.tokens [⟨7, "y"⟩, ⟨4, "x"⟩]).length = summedTail.size :=
  ⟨rfl, rfl, tokens_eq_iff.2.1 [⟨7, "y"⟩, ⟨4, "x"⟩] summedTail summedFront rfl rfl, by decide,
    tokens_eq_iff.2.2 _ summedTail⟩

end Expr

end Intension
