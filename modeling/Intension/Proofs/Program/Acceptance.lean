import Intension.Proofs.Program.Slots
import Intension.Proofs.Program.Streams

namespace Intension

namespace Expr

theorem code_congr {slot other : Variable → Nat} {e : Expr}
    (same : ∀ v ∈ e.occurrences, slot v = other v) : e.code slot = e.code other := by
  induction e using Expr.induction with
  | leaf l =>
    cases l with
    | var v =>
      have equal := same v (mem_occurrences.mpr (by simp [leaves]))
      simp only [code, Leaf.instruction, equal]
    | const k => rfl
    | param i => rfl
    | wild w => rfl
  | node op args ih =>
    have operands : codeList slot args = codeList other args := by
      rw [codeList_eq_flatMap, codeList_eq_flatMap]
      apply List.flatMap_congr
      intro arg member
      apply ih arg member
      intro v occurs
      exact same v (mem_occurrences.mpr (mem_leaves_node.mpr ⟨arg, member, mem_occurrences.mp occurs⟩))
    have last : root slot (.node op args) = root other (.node op args) := by cases op <;> rfl
    rw [code, code, operands, last]

theorem resultCategory_code (slot : Variable → Nat) (e : Expr) :
    Program.resultCategory (e.code slot) = e.category?.getD .integer := by
  cases e with
  | leaf l => cases l <;> rfl
  | node op args =>
    rw [code, Program.resultCategory, List.getLast?_concat]
    cases op <;> rfl

end Expr

namespace Program

open Intension.Expr (Slots)

/-- The scope against which the stream of an expression is written. -/
def streamScope (e : Expr) : List Variable := if e.parameters.isEmpty then e.scope else []

theorem idxOf?_of_mem {scope : List Variable} {v : Variable} (member : v ∈ scope) :
    scope.idxOf? v = some (scope.idxOf v) := by
  rw [List.idxOf_eq_getD_idxOf?]
  cases found : scope.idxOf? v with
  | none => exact absurd member (List.idxOf?_eq_none_iff.mp found)
  | some i => rfl

theorem var?_ofLeaf (scope : List Variable) {l : Leaf} {v : Variable} :
    (Token.ofLeaf scope l).var? = some v ↔ l = .var v ∧ v ∉ scope := by
  cases l with
  | var w =>
    by_cases member : w ∈ scope
    · simp only [Token.ofLeaf, idxOf?_of_mem member, Token.var?, Leaf.var.injEq, reduceCtorEq, false_iff]
      intro unscoped
      exact unscoped.2 (unscoped.1 ▸ member)
    · have none := List.idxOf?_eq_none_iff.mpr member
      simp only [Token.ofLeaf, none, Token.var?, Leaf.var.injEq, Option.some.injEq]
      exact ⟨fun same => ⟨same, same ▸ member⟩, fun both => both.1⟩
  | const k => simp [Token.ofLeaf, Token.var?]
  | param i => simp [Token.ofLeaf, Token.var?]
  | wild w => simp [Token.ofLeaf, Token.var?]

theorem slot?_ofLeaf (scope : List Variable) {l : Leaf} {i : Nat} :
    (Token.ofLeaf scope l).slot? = some i ↔
      l = .param i ∨ ∃ v, l = .var v ∧ scope.idxOf? v = some i := by
  cases l with
  | var w =>
    simp only [Token.ofLeaf]
    cases found : scope.idxOf? w <;> simp [Token.slot?, found]
  | const k => simp [Token.ofLeaf, Token.slot?]
  | param j => simp [Token.ofLeaf, Token.slot?]
  | wild w => simp [Token.ofLeaf, Token.slot?]

theorem mem_named {e : Expr} {scope : List Variable} {v : Variable} :
    v ∈ (e.tokens scope).filterMap Token.var? ↔ v ∈ e.occurrences ∧ v ∉ scope := by
  rw [Expr.filterMap_tokens scope _ (fun _ _ => rfl), List.mem_filterMap, Expr.mem_occurrences]
  simp only [var?_ofLeaf]
  aesop

theorem mem_numbered {e : Expr} {scope : List Variable} {i : Nat} :
    i ∈ (e.tokens scope).filterMap Token.slot? ↔
      i ∈ e.parameters ∨ ∃ v ∈ e.occurrences, scope.idxOf? v = some i := by
  rw [Expr.filterMap_tokens scope _ (fun _ _ => rfl), List.mem_filterMap, Expr.mem_parameters]
  simp only [slot?_ofLeaf, Expr.mem_occurrences]
  aesop

theorem dense_scope (e : Expr) (i : Nat) :
    (∃ v ∈ e.occurrences, e.scope.idxOf? v = some i) ↔ i < e.scope.length := by
  constructor
  · intro used
    obtain ⟨v, _, found⟩ := used
    exact (List.idxOf?_eq_some_iff.mp found).1
  · intro bound
    have member : e.scope[i] ∈ e.scope := List.getElem_mem bound
    refine ⟨e.scope[i], Expr.mem_occurrences_of_mem_scope member, ?_⟩
    rw [idxOf?_of_mem member, e.nodup_scope.idxOf_getElem i bound]

/-- The variable in scope under the identifier of one that is not has a slot. -/
theorem slotCount_unscoped {e : Expr} {v : Variable} (occurs : v ∈ e.occurrences)
    (unscoped : v ∉ e.scope) : slotCount (e.tokens e.scope) = .error .mixedVariables := by
  obtain ⟨w, found, _⟩ := exists_mem_distinctBy Variable.id occurs
  have named := mem_named.mpr ⟨occurs, unscoped⟩
  have numbered : e.scope.idxOf w ∈ (e.tokens e.scope).filterMap Token.slot? :=
    mem_numbered.mpr (.inr ⟨w, Expr.mem_occurrences_of_mem_scope found, idxOf?_of_mem found⟩)
  exact slotCount_mixed (List.ne_nil_of_mem named) (List.ne_nil_of_mem numbered)

theorem slotCount_scope {e : Expr} (noParameters : e.parameters = []) (n : Nat) :
    slotCount (e.tokens e.scope) = .ok n ↔
      (∀ v ∈ e.occurrences, v ∈ e.scope) ∧ n = e.scope.length := by
  by_cases inScope : ∀ v ∈ e.occurrences, v ∈ e.scope
  · have unnamed : (e.tokens e.scope).filterMap Token.var? = [] := by
      apply List.eq_nil_iff_forall_not_mem.mpr
      intro v member
      obtain ⟨occurs, unscoped⟩ := mem_named.mp member
      exact unscoped (inScope v occurs)
    rw [slotCount_unnamed unnamed]
    simp only [mem_numbered, noParameters, List.not_mem_nil, false_or, dense_scope]
    constructor
    · intro same
      have first := same e.scope.length
      have last := same n
      exact ⟨inScope, by omega⟩
    · intro slots i
      rw [slots.2]
  · have missing := inScope
    push Not at missing
    obtain ⟨v, occurs, unscoped⟩ := missing
    rw [slotCount_unscoped occurs unscoped]
    simp only [reduceCtorEq, inScope, false_and]

theorem slotCount_parameters {e : Expr} (parameters : e.parameters ≠ []) (n : Nat) :
    slotCount (e.tokens []) = .ok n ↔
      e.occurrences = [] ∧ ∀ i, i ∈ e.parameters ↔ i < n := by
  rw [← e.filterMap_slot_tokens] at parameters
  by_cases none : e.occurrences = []
  · rw [slotCount_unnamed (e.filterMap_var_tokens.trans none), e.filterMap_slot_tokens]
    simp only [none, true_and]
  · have named : (e.tokens []).filterMap Token.var? ≠ [] := by rwa [e.filterMap_var_tokens]
    rw [slotCount_mixed named parameters]
    simp only [reduceCtorEq, none, false_and]

theorem slotCount_streamScope (e : Expr) (n : Nat) :
    slotCount (e.tokens (streamScope e)) = .ok n ↔ e.Slots n := by
  by_cases none : e.parameters = []
  · rw [streamScope, none, List.isEmpty_nil, if_pos rfl, slotCount_scope none]
    constructor
    · intro both
      exact .inl ⟨none, both⟩
    · intro slots
      rcases slots with ⟨_, both⟩ | ⟨noVariables, dense⟩
      · exact both
      · have noScope := Expr.scope_eq_nil_iff.mpr noVariables
        have zero := dense 0
        rw [none] at zero
        rw [noVariables, noScope]
        refine ⟨by simp, ?_⟩
        rw [List.length_nil]
        have notPositive : ¬ 0 < n := fun positive => absurd (zero.mpr positive) (by simp)
        omega
  · rw [streamScope, if_neg (by simpa using none), slotCount_parameters none]
    simp only [Slots, none, false_and, false_or]

theorem slotIn_streamScope {e : Expr} {n : Nat} (slots : e.Slots n) (ids : List Nat) {v : Variable}
    (member : v ∈ e.occurrences) : slotIn (streamScope e) ids v = e.scope.idxOf v := by
  rcases slots with ⟨none, inScope, _⟩ | ⟨none, _⟩
  · rw [slotIn, streamScope, none, List.isEmpty_nil, if_pos rfl, idxOf?_of_mem (inScope v member)]
  · rw [none] at member
    contradiction

/-- The program of an expression that has one. -/
def ofSlots (e : Expr) (n : Nat) (shortCircuit : Bool) : Program :=
  ⟨withJumps shortCircuit (e.code e.scope.idxOf), n, e.category?.getD .integer, e.scope⟩

theorem ofExpr_eq_map (e : Expr) (shortCircuit : Bool) :
    ofExpr e shortCircuit =
      (ofTokens (e.tokens (streamScope e)) shortCircuit).map fun p => { p with scope := e.scope } := by
  change (ofTokens (e.tokens (streamScope e)) shortCircuit).bind _ = _
  cases ofTokens (e.tokens (streamScope e)) shortCircuit <;> rfl

/-- The expressions that have a program, and what it is. -/
theorem ofExpr_eq_ok_iff (e : Expr) (shortCircuit : Bool) (p : Program) :
    ofExpr e shortCircuit = .ok p ↔
      e.WellFormed ∧ ∃ n, e.Slots n ∧ p = ofSlots e n shortCircuit := by
  have stream : ofExpr e shortCircuit = (lowered (e.tokens (streamScope e))).map
      (fun stream =>
        ⟨withJumps shortCircuit stream.2, stream.1, resultCategory stream.2, e.scope⟩) := by
    rw [ofExpr_eq_map, ofTokens_eq_map]
    cases lowered (e.tokens (streamScope e)) <;> rfl
  have slotsOf {n : Nat} (slots : e.Slots n) :
      e.code (slotIn (streamScope e) (variableIds (e.tokens (streamScope e)))) = e.code e.scope.idxOf :=
    Expr.code_congr (fun v member => slotIn_streamScope slots _ member)
  rw [stream]
  constructor
  · intro found
    cases lowers : lowered (e.tokens (streamScope e)) with
    | error error => rw [lowers] at found; cases found
    | ok both =>
      obtain ⟨arity, code⟩ := both
      rw [lowers] at found
      cases found
      obtain ⟨_, counted, assembled⟩ := lowered_eq_ok_iff.mp lowers
      have slots := (slotCount_streamScope e arity).mp counted
      obtain ⟨valid, rfl⟩ := (assemble_tokens_iff _ _ _ _).mp assembled
      refine ⟨valid, arity, slots, ?_⟩
      simp only [ofSlots, slotsOf slots, Expr.resultCategory_code]
  · intro accepted
    obtain ⟨valid, n, slots, rfl⟩ := accepted
    have lowers := lowered_eq_ok_iff.mpr ⟨e.tokens_ne_nil _, (slotCount_streamScope e n).mpr slots,
      (assemble_tokens_iff _ _ _ _).mpr ⟨valid, rfl⟩⟩
    rw [lowers]
    simp only [Except.map, ofSlots, slotsOf slots, Expr.resultCategory_code]

end Program

end Intension
