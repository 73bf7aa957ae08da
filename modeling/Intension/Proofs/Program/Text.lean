import Intension.Proofs.Expr.Rewritten
import Intension.Proofs.Program.Evaluation
import Intension.Proofs.Token.Text

namespace Intension

namespace Expr

/-- Identifiers and parameters have 32 bits, and operands are counted with 64. -/
structure Storable (e : Expr) : Prop where
  ids : ∀ v ∈ e.occurrences, v.id < UInt32.size
  parameters : ∀ i ∈ e.parameters, i < UInt32.size
  operands : e.Everywhere (fun _ args => args.length < UInt64.size)

theorem length_scope_le {e : Expr} {n : Nat} (ids : ∀ v ∈ e.occurrences, v.id < n) :
    e.scope.length ≤ n := by
  have below : e.scope.map Variable.id ⊆ List.range n := by
    intro i member
    obtain ⟨v, inScope, rfl⟩ := List.mem_map.mp member
    exact List.mem_range.mpr (ids v (mem_occurrences_of_mem_scope inScope))
  simpa using (e.nodup_ids.subperm below).length_le

theorem storable_tokens {scope : List Variable} {e : Expr} (sized : e.Sized)
    (operands : e.Everywhere (fun _ args => args.length < UInt64.size))
    (leaves : ∀ l ∈ e.leaves, (Token.ofLeaf scope l).Storable) : ∀ t ∈ e.tokens scope, t.Storable := by
  induction e using Expr.induction with
  | leaf l =>
    intro t member
    rw [List.mem_singleton.mp member]
    exact leaves l (List.mem_singleton.mpr rfl)
  | node op args ih =>
    obtain ⟨arity, sized⟩ := sized_node.mp sized
    obtain ⟨bound, operands⟩ := everywhere_node.mp operands
    intro t member
    rw [tokens, tokensList_eq_flatMap] at member
    rcases List.mem_append.mp member with below | last
    · obtain ⟨arg, inside, below⟩ := List.mem_flatMap.mp below
      exact ih arg inside (sized arg inside) (operands arg inside)
        (fun l found => leaves l (mem_leaves_node.mpr ⟨arg, inside, found⟩)) t below
    · rw [List.mem_singleton.mp last]
      exact Token.storable_op arity bound

theorem Storable.ofLeaf {e : Expr} (storable : e.Storable) (valid : e.WellFormed) {n : Nat}
    (slots : e.Slots n) : ∀ l ∈ e.leaves, (Token.ofLeaf e.scope l).Storable := by
  intro l member
  cases l with
  | var v =>
    have occurs := mem_occurrences.mpr member
    rcases slots with ⟨_, inScope, _⟩ | ⟨none, _⟩
    · -- No two variables in scope share an identifier, so there are no more places than identifiers.
      have place := List.idxOf_lt_length_of_mem (inScope v occurs)
      have places := length_scope_le storable.ids
      rw [Token.ofLeaf, Program.idxOf?_of_mem (inScope v occurs)]
      exact Nat.lt_of_lt_of_le place places
    · rw [none] at occurs
      contradiction
  | const k => trivial
  | param i => exact storable.parameters i (mem_parameters.mpr member)
  | wild w => exact absurd member (valid.concrete w)

end Expr

namespace Program

theorem streamScope_eq {e : Expr} {n : Nat} (slots : e.Slots n) : streamScope e = e.scope := by
  rcases slots with ⟨none, _⟩ | ⟨none, _⟩
  · rw [streamScope, none, List.isEmpty_nil, if_pos rfl]
  · rw [streamScope, Expr.scope_eq_nil_iff.mpr none, ite_self]

/-- The stream against the scope of a program has the same program, but for the names. -/
theorem ofTokens_of_ofExpr {e : Expr} {p : Program} {shortCircuit : Bool}
    (accepted : ofExpr e shortCircuit = .ok p) :
    ofTokens (e.tokens p.scope) shortCircuit = .ok { p with scope := [] } := by
  obtain ⟨_, n, slots, _⟩ := (ofExpr_eq_ok_iff e shortCircuit p).mp accepted
  obtain ⟨q, stream, same⟩ := bind_eq_ok accepted
  obtain ⟨arity, code, _, rfl⟩ := ofTokens_eq_ok stream
  change ofTokens (e.tokens (streamScope e)) shortCircuit = _ at stream
  rw [streamScope_eq slots] at stream
  cases same
  exact stream

/-- Text keeps streams, and with the stream of an expression it keeps the program. -/
theorem ofText_render_tokens :
    (∀ ts : List Token, (∀ t ∈ ts, t.Storable) → Token.ofText (Token.render ts) = ts) ∧
      ∀ (e : Expr) (shortCircuit : Bool) (p : Program), e.Storable → ofExpr e shortCircuit = .ok p →
        ofText (Token.render (e.tokens p.scope)) shortCircuit = .ok { p with scope := [] } := by
  refine ⟨fun _ => Token.ofText_render_of_storable, ?_⟩
  intro e shortCircuit p storable accepted
  obtain ⟨valid, n, slots, same⟩ := (ofExpr_eq_ok_iff e shortCircuit p).mp accepted
  have tokens : ∀ t ∈ e.tokens p.scope, t.Storable := by
    rw [same]
    exact Expr.storable_tokens valid.sized storable.operands (storable.ofLeaf valid slots)
  rw [ofText, Token.ofText_render_of_storable tokens]
  exact ofTokens_of_ofExpr accepted

/-- The least word, a slot, a set without members and a conditional. -/
def mixedStream : List Token :=
  [.int (-9223372036854775808), .slot 12, .op .set 0, .op .add 10, .op .ite 3]

theorem ofText_render_mixedStream :
    (∀ t ∈ mixedStream, t.Storable) ∧ Token.ofText (Token.render mixedStream) = mixedStream ∧
      Context.guardedQuotient.Storable ∧
      ∃ p, ofExpr Context.guardedQuotient true = .ok p ∧
        ofText (Token.render (Context.guardedQuotient.tokens p.scope)) true =
          .ok { p with scope := [] } := by
  have storable : ∀ t ∈ mixedStream, t.Storable := by
    simp [mixedStream, Token.Storable, Operator.arity, UInt32.size, UInt64.size]
  have bounded : Context.guardedQuotient.Storable := by
    refine ⟨by decide, by decide, ?_⟩
    simp [Context.guardedQuotient, Expr.everywhere_node, Expr.Everywhere.leaf, UInt64.size]
  exact ⟨storable, ofText_render_tokens.1 _ storable, bounded, _, rfl,
    ofText_render_tokens.2 _ true _ bounded rfl⟩

end Program

end Intension
