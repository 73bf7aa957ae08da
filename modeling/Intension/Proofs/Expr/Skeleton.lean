import Mathlib.Data.List.Basic
import Intension.Proofs.Expr.Value

namespace Intension.Expr

mutual

/-- The expression with other leaves in the places of its own. -/
def mapLeaves (f : Leaf → Leaf) : Expr → Expr
  | .leaf l => .leaf (f l)
  | .node op args => .node op (mapLeavesList f args)

def mapLeavesList (f : Leaf → Leaf) : List Expr → List Expr
  | [] => []
  | e :: es => e.mapLeaves f :: mapLeavesList f es

end

theorem mapLeavesList_eq_map (f : Leaf → Leaf) (es : List Expr) :
    mapLeavesList f es = es.map (mapLeaves f) := by
  induction es with
  | nil => rfl
  | cons e es ih => rw [mapLeavesList, ih, List.map_cons]

theorem mapLeaves_node (f : Leaf → Leaf) (op : Operator) (args : List Expr) :
    (Expr.node op args).mapLeaves f = .node op (args.map (mapLeaves f)) := by
  rw [mapLeaves, mapLeavesList_eq_map]

theorem leaves_mapLeaves (f : Leaf → Leaf) (e : Expr) : (e.mapLeaves f).leaves = e.leaves.map f := by
  induction e using Expr.induction with
  | leaf l => rfl
  | node op args ih =>
    rw [mapLeaves_node, leaves, leaves, leavesList_eq_flatMap, leavesList_eq_flatMap, List.map_flatMap,
      List.flatMap_map]
    exact List.flatMap_congr ih

theorem mapLeaves_congr {f g : Leaf → Leaf} {e : Expr} (same : ∀ l ∈ e.leaves, f l = g l) :
    e.mapLeaves f = e.mapLeaves g := by
  induction e using Expr.induction with
  | leaf l => rw [mapLeaves, mapLeaves, same l (List.mem_singleton.mpr rfl)]
  | node op args ih =>
    rw [mapLeaves_node, mapLeaves_node]
    congr 1
    apply List.map_congr_left
    intro arg member
    exact ih arg member (fun l inside => same l (mem_leaves_node.mpr ⟨arg, member, inside⟩))

theorem mapLeaves_mapLeaves (f g : Leaf → Leaf) (e : Expr) :
    (e.mapLeaves f).mapLeaves g = e.mapLeaves (g ∘ f) := by
  induction e using Expr.induction with
  | leaf l => rfl
  | node op args ih =>
    rw [mapLeaves_node, mapLeaves_node, mapLeaves_node, List.map_map]
    exact congrArg (Expr.node op) (List.map_congr_left ih)

/-- The operators of an expression and the numbers of their operands. -/
def skeleton (e : Expr) : Expr := e.mapLeaves fun _ => .const 0

theorem skeleton_mapLeaves (f : Leaf → Leaf) (e : Expr) : (e.mapLeaves f).skeleton = e.skeleton :=
  mapLeaves_mapLeaves f _ e

theorem skeleton_node (op : Operator) (args : List Expr) :
    (Expr.node op args).skeleton = .node op (args.map skeleton) := mapLeaves_node _ op args

theorem skeleton_eq_leaf {e : Expr} {l : Leaf} (same : e.skeleton = .leaf l) : ∃ m, e = .leaf m := by
  cases e with
  | leaf m => exact ⟨m, rfl⟩
  | node op args => cases same

theorem skeleton_eq_node {e : Expr} {op : Operator} {args : List Expr}
    (same : e.skeleton = .node op args) : ∃ bs, e = .node op bs ∧ bs.map skeleton = args := by
  cases e with
  | leaf l => cases same
  | node other bs =>
    rw [skeleton_node] at same
    cases same
    exact ⟨bs, rfl, rfl⟩

theorem exists_of_map_skeleton {as bs : List Expr} (same : as.map skeleton = bs.map skeleton) {a : Expr}
    (member : a ∈ as) : ∃ b ∈ bs, b.skeleton = a.skeleton := by
  have inside := List.mem_map_of_mem (f := skeleton) member
  rw [same] at inside
  exact List.mem_map.mp inside

theorem length_leaves_skeleton (e : Expr) : e.skeleton.leaves.length = e.leaves.length := by
  rw [skeleton, leaves_mapLeaves, List.length_map]

theorem eq_of_leavesList {as bs : List Expr}
    (each : ∀ a ∈ as, ∀ b, a.skeleton = b.skeleton → a.leaves = b.leaves → a = b)
    (skeletons : as.map skeleton = bs.map skeleton) (leaves : leavesList as = leavesList bs) :
    as = bs := by
  induction as generalizing bs with
  | nil => exact (List.map_eq_nil_iff.mp skeletons.symm).symm
  | cons a as ih =>
    obtain ⟨b, bs, rfl, first, rest⟩ := List.map_eq_cons_iff.mp skeletons.symm
    have lengths : a.leaves.length = b.leaves.length := by
      rw [← length_leaves_skeleton a, ← first, length_leaves_skeleton]
    obtain ⟨head, tail⟩ := List.append_inj leaves lengths
    rw [each a List.mem_cons_self b first.symm head,
      ih (fun e member => each e (List.mem_cons_of_mem _ member)) rest.symm tail]

/-- An expression is determined by its operators and its leaves. -/
theorem eq_of_skeleton {a b : Expr} (skeletons : a.skeleton = b.skeleton)
    (leaves : a.leaves = b.leaves) : a = b := by
  induction a using Expr.induction generalizing b with
  | leaf l =>
    obtain ⟨m, rfl⟩ := skeleton_eq_leaf skeletons.symm
    cases leaves
    rfl
  | node op args ih =>
    rw [skeleton_node] at skeletons
    obtain ⟨bs, rfl, operands⟩ := skeleton_eq_node skeletons.symm
    rw [eq_of_leavesList (fun a member b => ih a member) operands.symm leaves]

theorem mapLeaves_of_fixed {f : Leaf → Leaf} {e : Expr} (fixed : ∀ l ∈ e.leaves, f l = l) :
    e.mapLeaves f = e := by
  apply eq_of_skeleton (skeleton_mapLeaves f e)
  rw [leaves_mapLeaves, List.map_congr_left fixed, List.map_id']

/-- Whether an expression has code depends on its leaves only in that none is a wildcard. -/
theorem WellFormed.of_skeleton {a b : Expr} (valid : a.WellFormed) (same : b.skeleton = a.skeleton)
    (concrete : ∀ w, .wild w ∉ b.leaves) : b.WellFormed := by
  induction valid generalizing b with
  | leaf =>
    obtain ⟨m, rfl⟩ := skeleton_eq_leaf same
    refine .leaf ?_
    rintro w rfl
    exact concrete w (List.mem_singleton.mpr rfl)
  | noMembers =>
    obtain ⟨members, rfl, none⟩ := skeleton_eq_node same
    rw [List.map_eq_nil_iff.mp none]
    exact .noMembers
  | test membership first rest ihFirst ihRest =>
    rename_i op tested members
    rw [skeleton_node] at same
    obtain ⟨bs, rfl, operands⟩ := skeleton_eq_node same
    obtain ⟨other, bs, rfl, first, operands⟩ := List.map_eq_cons_iff.mp operands
    obtain ⟨set, bs, rfl, second, none⟩ := List.map_eq_cons_iff.mp operands
    rw [skeleton_node] at second
    obtain ⟨others, rfl, inner⟩ := skeleton_eq_node second
    rw [List.map_eq_nil_iff.mp none] at concrete ⊢
    have below (arg : Expr) (member : arg ∈ [other, .node .set others]) (w : Wildcard) :
        .wild w ∉ arg.leaves := fun inside => concrete w (mem_leaves_node.mpr ⟨arg, member, inside⟩)
    refine .test membership (ihFirst first (below other (by simp))) ?_
    intro arg member
    obtain ⟨source, found, same⟩ := exists_of_map_skeleton inner member
    exact ihRest source found same.symm
      (fun w inside => below (.node .set others) (by simp) w (mem_leaves_node.mpr ⟨arg, member, inside⟩))
  | operator plain arity each ih =>
    rename_i op args
    rw [skeleton_node] at same
    obtain ⟨bs, rfl, operands⟩ := skeleton_eq_node same
    have length : bs.length = args.length := by
      rw [← List.length_map skeleton, operands, List.length_map]
    refine .operator plain (length ▸ arity) ?_
    intro arg member
    obtain ⟨source, found, same⟩ := exists_of_map_skeleton operands member
    exact ih source found same.symm
      (fun w inside => concrete w (mem_leaves_node.mpr ⟨arg, member, inside⟩))

theorem isBoolean_mapLeaves (f : Leaf → Leaf) (e : Expr) : (e.mapLeaves f).isBoolean = e.isBoolean := by
  cases e <;> rfl

theorem valueList_map {shortCircuit : Bool} {read : Leaf → Word} {f : Leaf → Leaf} {es : List Expr}
    (each : ∀ e ∈ es, (e.mapLeaves f).value shortCircuit read = e.value shortCircuit (read ∘ f)) :
    valueList shortCircuit read (es.map (mapLeaves f)) = valueList shortCircuit (read ∘ f) es := by
  induction es with
  | nil => rw [List.map_nil, valueList_nil, valueList_nil]
  | cons e es ih =>
    rw [List.map_cons, valueList_cons, valueList_cons, each e List.mem_cons_self,
      ih (fun other member => each other (List.mem_cons_of_mem _ member))]

theorem value_mapLeaves {e : Expr} (valid : e.WellFormed) (shortCircuit : Bool) (read : Leaf → Word)
    (f : Leaf → Leaf) :
    (e.mapLeaves f).value shortCircuit read = e.value shortCircuit (read ∘ f) := by
  induction valid with
  | leaf concrete => rw [mapLeaves, value_leaf, value_leaf, Function.comp_apply]
  | noMembers => rw [mapLeaves, value_set, value_set]
  | test membership first rest ihFirst ihRest =>
    rw [mapLeaves_node, List.map_cons, List.map_cons, List.map_nil, mapLeaves_node,
      value_test _ _ membership, value_test _ _ membership, ihFirst, valueList_map ihRest]
  | operator plain arity each ih =>
    obtain ⟨first, others, rfl⟩ := List.exists_cons_of_ne_nil (plain.args_ne_nil arity)
    rw [mapLeaves_node, List.map_cons, value_plain _ _ plain, value_plain _ _ plain,
      isBoolean_mapLeaves, ih first List.mem_cons_self,
      valueList_map (fun arg member => ih arg (List.mem_cons_of_mem _ member))]

end Intension.Expr
