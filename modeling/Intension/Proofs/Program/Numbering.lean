import Intension.Proofs.Machine.ShortCircuit
import Intension.Proofs.Program.Balance
import Intension.Proofs.Program.Compilable

namespace Intension

/-- The token against a scope of a token that was written without one. -/
def Token.scoped (scope : List Variable) : Token → Token
  | .var v => Token.ofLeaf scope (.var v)
  | t => t

namespace Expr

theorem tokens_eq_map (scope : List Variable) (e : Expr) :
    e.tokens scope = (e.tokens []).map (Token.scoped scope) := by
  induction e using Expr.induction with
  | leaf l => cases l <;> rfl
  | node op args ih =>
    rw [tokens, tokens, List.map_append, tokensList_eq_flatMap, tokensList_eq_flatMap,
      List.map_flatMap]
    exact congrArg (· ++ [.op op args.length]) (List.flatMap_congr ih)

end Expr

namespace Program

theorem variableIds_tokens (e : Expr) : variableIds (e.tokens []) = e.scope.map Variable.id := by
  rw [variableIds, e.filterMap_var_tokens, distinctBy_map]
  rfl

theorem id_mem_variableIds {ts : List Token} {v : Variable} (member : .var v ∈ ts) :
    v.id ∈ variableIds ts := by
  have named : v ∈ ts.filterMap Token.var? := List.mem_filterMap.mpr ⟨.var v, member, rfl⟩
  exact mem_distinctBy_id.mpr (List.mem_map_of_mem named)

theorem idxOf_id {e : Expr} {v : Variable} (member : v ∈ e.scope) :
    (e.scope.map Variable.id).idxOf v.id = e.scope.idxOf v := by
  have bound := List.idxOf_lt_length_of_mem member
  have inside : e.scope.idxOf v < (e.scope.map Variable.id).length := by rwa [List.length_map]
  have value : (e.scope.map Variable.id)[e.scope.idxOf v] = v.id := by
    rw [List.getElem_map, List.getElem_idxOf]
  rw [← value, e.nodup_ids.idxOf_getElem]

/-- Streams whose tokens have the same instructions assemble to the same code, or have the same
    error. -/
theorem assemble_map {f : Token → Token} {ids others : List Nat} {ts : List Token}
    (same : ∀ t ∈ ts, ∀ previous position,
      instruction others previous position (f t) = instruction ids previous position t)
    (previous : Option Instruction) (height position : Nat) :
    assemble others previous height position (ts.map f) =
      assemble ids previous height position ts := by
  induction ts generalizing previous height position with
  | nil => rfl
  | cons t ts ih =>
    have first := same t List.mem_cons_self previous position
    have rest := ih (fun u member => same u (List.mem_cons_of_mem _ member))
    simp only [List.map_cons, assemble, first, rest]

theorem instruction_of_assemble {ids : List Nat} {ts : List Token} {previous : Option Instruction}
    {height position : Nat} {code : List Instruction}
    (found : assemble ids previous height position ts = .ok code) {i : Nat} {v : Variable}
    (token : ts[i]? = some (.var v)) : code[i]? = some (.load (ids.idxOf v.id)) := by
  rcases assemble_getElem? found i with ⟨missing, _⟩ | ⟨t, _, j, here, _, there, made⟩
  · rw [token] at missing
    cases missing
  · rw [token] at here
    cases here
    cases made
    exact there

theorem instruction_scoped {e : Expr} (inScope : ∀ v ∈ e.occurrences, v ∈ e.scope) {t : Token}
    (member : t ∈ e.tokens []) (ids : List Nat) (previous : Option Instruction) (position : Nat) :
    instruction ids previous position (t.scoped e.scope) =
      instruction (variableIds (e.tokens [])) previous position t := by
  cases t with
  | var v =>
    have occurs : v ∈ e.occurrences := by
      rw [← e.filterMap_var_tokens]
      exact List.mem_filterMap.mpr ⟨.var v, member, rfl⟩
    simp only [Token.scoped, Token.ofLeaf, idxOf?_of_mem (inScope v occurs), instruction,
      variableIds_tokens, idxOf_id (inScope v occurs)]
  | int k => rfl
  | slot i => rfl
  | op op arity => rfl
  | unknown word => rfl

theorem lowered_scope {e : Expr} (noParameters : e.parameters = [])
    (inScope : ∀ v ∈ e.occurrences, v ∈ e.scope) :
    lowered (e.tokens e.scope) = lowered (e.tokens []) := by
  have numberless : (e.tokens []).filterMap Token.slot? = [] :=
    e.filterMap_slot_tokens.trans noParameters
  have slots : slotCount (e.tokens e.scope) = slotCount (e.tokens []) := by
    rw [(slotCount_scope noParameters _).mpr ⟨inScope, rfl⟩, slotCount_numberless numberless,
      variableIds_tokens, List.length_map]
  have code (ids : List Nat) : assemble ids none 0 0 (e.tokens e.scope) =
      assemble (variableIds (e.tokens [])) none 0 0 (e.tokens []) := by
    rw [e.tokens_eq_map e.scope]
    exact assemble_map (fun t member => instruction_scoped inScope member ids) none 0 0
  have nonempty (scope : List Variable) : (e.tokens scope).isEmpty = false := by
    simp [e.tokens_ne_nil scope]
  rw [lowered, lowered, nonempty, nonempty, slots, code]

theorem exists_unscoped {e : Expr} {v w : Variable} (first : v ∈ e.occurrences)
    (second : w ∈ e.occurrences) (same : v.id = w.id) (differ : v ≠ w) :
    ∃ u ∈ e.occurrences, u ∉ e.scope := by
  by_contra none
  push Not at none
  exact differ (eq_of_mem_distinctBy (none v first) (none w second) same)

/-- An expression without parameters has the program of its stream, in which a variable is its
    identifier, unless two of its variables share one. It has no program then. -/
theorem ofExpr_eq_ofTokens {e : Expr} (noParameters : e.parameters = []) (shortCircuit : Bool) :
    ((∀ v ∈ e.occurrences, ∀ w ∈ e.occurrences, v.id = w.id → v = w) →
        ofExpr e shortCircuit =
          (ofTokens (e.tokens []) shortCircuit).map fun p => { p with scope := e.scope }) ∧
      (∀ v ∈ e.occurrences, ∀ w ∈ e.occurrences, v.id = w.id → v ≠ w →
        ofExpr e shortCircuit = .error .mixedVariables) ∧
      ∀ p, ofTokens (e.tokens []) shortCircuit = .ok p →
        ∀ (i j : Nat) (v w : Variable), (e.tokens [])[i]? = some (.var v) →
          (e.tokens [])[j]? = some (.var w) →
          ∃ s t, p.instructions[i]? = some (.load s) ∧ p.instructions[j]? = some (.load t) ∧
            (s = t ↔ v.id = w.id) := by
  have scope : streamScope e = e.scope := by
    rw [streamScope, noParameters, List.isEmpty_nil, if_pos rfl]
  refine ⟨?_, ?_, ?_⟩
  · intro named
    rw [ofExpr_eq_map, scope, ofTokens_eq_map, ofTokens_eq_map,
      lowered_scope noParameters (Expr.mem_scope_of_named named)]
  · intro v first w second same differ
    obtain ⟨u, occurs, unscoped⟩ := exists_unscoped first second same differ
    have nonempty : (e.tokens e.scope).isEmpty = false := by simp [e.tokens_ne_nil e.scope]
    rw [ofExpr_eq_map, scope, ofTokens_eq_map, lowered, nonempty, slotCount_unscoped occurs unscoped]
    rfl
  · intro p accepted i j v w first second
    -- Jumps leave the instructions as they were assembled, and a load has the place of an identifier.
    obtain ⟨arity, code, lowers, rfl⟩ := ofTokens_eq_ok accepted
    obtain ⟨_, _, assembled⟩ := lowered_eq_ok_iff.mp lowers
    have instructions : Program.instructions
        ⟨withJumps shortCircuit code, arity, resultCategory code, []⟩ = code :=
      instruction_withJumps shortCircuit code
    rw [instructions]
    exact ⟨_, _, instruction_of_assemble assembled first, instruction_of_assemble assembled second,
      List.idxOf_inj (id_mem_variableIds (List.mem_of_getElem? first))⟩

theorem ofExpr_eq_ofTokens_guardedQuotient :
    Context.guardedQuotient.parameters = [] ∧
      (∀ v ∈ Context.guardedQuotient.occurrences, ∀ w ∈ Context.guardedQuotient.occurrences,
        v.id = w.id → v = w) ∧
      ∃ p, ofTokens (Context.guardedQuotient.tokens []) true = .ok p ∧
        ofExpr Context.guardedQuotient true =
          .ok { p with scope := Context.guardedQuotient.scope } := by
  have noParameters : Context.guardedQuotient.parameters = [] := rfl
  have named : ∀ v ∈ Context.guardedQuotient.occurrences,
      ∀ w ∈ Context.guardedQuotient.occurrences, v.id = w.id → v = w := by decide
  exact ⟨noParameters, named, _, rfl, (ofExpr_eq_ofTokens noParameters true).1 named⟩

/-- One identifier under two names. -/
def twoNames : Expr := .node .eq [.leaf (.var ⟨0, "x"⟩), .leaf (.var ⟨0, "y"⟩)]

/-- The scope has the first of the two names only, and the other one is taken for a variable outside
    of it. By identifier they are one variable. -/
theorem ofExpr_twoNames :
    twoNames.parameters = [] ∧ ofExpr twoNames true = .error .mixedVariables ∧
      ofTokens (twoNames.tokens []) true =
        .ok ⟨[⟨.load 0, none⟩, ⟨.load 0, none⟩, ⟨.apply .eq 2, none⟩], 1, .boolean, []⟩ :=
  ⟨rfl, rfl, rfl⟩

end Program

end Intension
