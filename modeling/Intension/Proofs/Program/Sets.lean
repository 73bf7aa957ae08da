import Intension.Proofs.Machine.ShortCircuit
import Intension.Proofs.Program.Compilable

namespace Intension

namespace Token

/-- A membership test, where there is a token at all. -/
def Tests (t? : Option Token) : Prop :=
  ∃ op arity, (op = .mem ∨ op = .notMem) ∧ t? = some (.op op arity)

/-- Every set of a stream that has at least so many members is followed by a membership test. -/
def SetsTested (least : Nat) (ts : List Token) : Prop :=
  ∀ (position members : Nat), ts[position]? = some (.op .set members) → least ≤ members →
    Tests ts[position + 1]?

theorem tests_op {op : Operator} {arity : Nat} :
    Tests (some (.op op arity)) ↔ op = .mem ∨ op = .notMem := by
  constructor
  · rintro ⟨_, _, membership, same⟩
    cases same
    exact membership
  · intro membership
    exact ⟨op, arity, membership, rfl⟩

theorem ofLeaf_ne_op (scope : List Variable) (l : Leaf) (op : Operator) (arity : Nat) :
    ofLeaf scope l ≠ .op op arity := by
  intro same
  cases l with
  | var v =>
    simp only [ofLeaf] at same
    split at same <;> cases same
  | const k => cases same
  | param i => cases same
  | wild w => cases same

theorem setsTested_cons {least : Nat} {t : Token} {ts : List Token} :
    SetsTested least (t :: ts) ↔
      (∀ members, t = .op .set members → least ≤ members → Tests ts[0]?) ∧ SetsTested least ts := by
  constructor
  · intro tested
    refine ⟨?_, fun position => tested (position + 1)⟩
    rintro members rfl
    exact tested 0 members rfl
  · rintro ⟨first, rest⟩ (_ | position) members found
    · exact first members (Option.some.inj found)
    · exact rest position members found

end Token

namespace Expr

open Token (Tests SetsTested)

/-- Among operands, sets that have at least so many members are only what a membership test is
    against. -/
def TestedSets (least : Nat) (op : Operator) (args : List Expr) : Prop :=
  ∀ (position : Nat) members, args[position]? = some (.node .set members) →
    least ≤ members.length → (op = .mem ∨ op = .notMem) ∧ position = 1

section Tokens

variable {least : Nat} {scope : List Variable}

theorem not_tests_tokens {e : Expr} (sized : e.Sized) (rest : List Token) :
    ¬ Tests (e.tokens scope ++ rest)[0]? := by
  induction e using Expr.induction generalizing rest with
  | leaf l =>
    rintro ⟨op, arity, _, same⟩
    exact Token.ofLeaf_ne_op scope l op arity (Option.some.inj same)
  | node op args ih =>
    obtain ⟨arity, below⟩ := sized_node.mp sized
    rw [tokens, List.append_assoc]
    cases args with
    | nil =>
      -- A test without operands is the only expression that starts with one.
      intro tests
      rcases Token.tests_op.mp tests with rfl | rfl <;> cases arity
    | cons arg args =>
      rw [tokensList, List.append_assoc]
      exact ih arg (by simp) (below arg (by simp)) _

theorem tests_tokensList {es : List Expr} (sized : ∀ e ∈ es, e.Sized) (rest : List Token) :
    Tests (tokensList scope es ++ rest)[0]? ↔ es = [] ∧ Tests rest[0]? := by
  cases es with
  | nil => simp only [tokensList, List.nil_append, true_and]
  | cons e es =>
    rw [tokensList, List.append_assoc]
    exact iff_of_false (not_tests_tokens (sized e (by simp)) _) (by simp)

/-- What the sets in the tokens of an expression are followed by, whatever stands behind them. -/
def SetsFollowed (least : Nat) (scope : List Variable) (e : Expr) : Prop :=
  ∀ rest, SetsTested least (e.tokens scope ++ rest) ↔
    e.Everywhere (TestedSets least) ∧
      (∀ members, e = .node .set members → least ≤ members.length → Tests rest[0]?) ∧
      SetsTested least rest

theorem setsTested_tokensList {es : List Expr} (sized : ∀ e ∈ es, e.Sized)
    (each : ∀ e ∈ es, SetsFollowed least scope e) (rest : List Token) :
    SetsTested least (tokensList scope es ++ rest) ↔
      (∀ e ∈ es, e.Everywhere (TestedSets least)) ∧
        (∀ (position : Nat) members, es[position]? = some (.node .set members) →
          least ≤ members.length → position + 1 = es.length ∧ Tests rest[0]?) ∧
        SetsTested least rest := by
  induction es with
  | nil => simp [tokensList]
  | cons e es ih =>
    have sizedRest : ∀ f ∈ es, f.Sized := fun f member => sized f (List.mem_cons_of_mem _ member)
    rw [tokensList, List.append_assoc, each e (by simp),
      ih sizedRest (fun f member => each f (List.mem_cons_of_mem _ member)),
      tests_tokensList sizedRest, List.forall_mem_cons]
    constructor
    · rintro ⟨first, followed, others, places, tail⟩
      refine ⟨⟨first, others⟩, ?_, tail⟩
      rintro (_ | position) members found enough
      · obtain ⟨rfl, tests⟩ := followed members (Option.some.inj found) enough
        exact ⟨rfl, tests⟩
      · obtain ⟨last, tests⟩ := places position members found enough
        exact ⟨congrArg (· + 1) last, tests⟩
    · rintro ⟨⟨first, others⟩, places, tail⟩
      refine ⟨first, ?_, others, ?_, tail⟩
      · rintro members rfl enough
        obtain ⟨last, tests⟩ := places 0 members rfl enough
        exact ⟨List.length_eq_zero_iff.mp (Nat.succ.inj last).symm, tests⟩
      · intro position members found enough
        obtain ⟨last, tests⟩ := places (position + 1) members found enough
        exact ⟨Nat.succ.inj last, tests⟩

theorem setsFollowed (least : Nat) (scope : List Variable) {e : Expr} (sized : e.Sized) :
    SetsFollowed least scope e := by
  induction e using Expr.induction with
  | leaf l =>
    intro rest
    rw [tokens, List.singleton_append, Token.setsTested_cons]
    constructor
    · rintro ⟨_, tail⟩
      refine ⟨.leaf l, ?_, tail⟩
      intro members same
      cases same
    · rintro ⟨_, _, tail⟩
      exact ⟨fun members same => absurd same (Token.ofLeaf_ne_op scope l _ _), tail⟩
  | node op args ih =>
    intro rest
    obtain ⟨arity, below⟩ := sized_node.mp sized
    have two : op = .mem ∨ op = .notMem → args.length = 2 := by
      rintro (rfl | rfl) <;> exact of_decide_eq_true arity
    -- The operands come first, and what the last of them is followed by is the operator itself.
    rw [tokens, List.append_assoc, List.singleton_append,
      setsTested_tokensList below (fun arg member => ih arg member (below arg member)),
      Token.setsTested_cons, everywhere_node]
    have behind : Tests (Token.op op args.length :: rest)[0]? ↔ op = .mem ∨ op = .notMem :=
      Token.tests_op
    rw [behind]
    constructor
    · rintro ⟨each, places, root, tail⟩
      refine ⟨⟨?_, each⟩, ?_, tail⟩
      · intro position members found enough
        obtain ⟨last, membership⟩ := places position members found enough
        have length := two membership
        exact ⟨membership, by omega⟩
      · intro members same
        cases same
        exact root args.length rfl
    · rintro ⟨⟨places, each⟩, root, tail⟩
      refine ⟨each, ?_, ?_, tail⟩
      · intro position members found enough
        obtain ⟨membership, second⟩ := places position members found enough
        exact ⟨by rw [two membership, second], membership⟩
      · intro members same
        cases same
        exact root args rfl

theorem setsTested_tokens {e : Expr} (sized : e.Sized) :
    SetsTested least (e.tokens scope) ↔
      e.Everywhere (TestedSets least) ∧ ∀ members, e = .node .set members → members.length < least := by
  have whole := setsFollowed least scope sized []
  rw [List.append_nil] at whole
  rw [whole]
  have untested : ¬ Tests ([] : List Token)[0]? := nofun
  have empty : SetsTested least [] := nofun
  simp only [untested, empty, and_true, imp_false, Nat.not_le]

end Tokens

theorem everywhere_testedSets {e : Expr} (places : e.Everywhere PlacesSets) :
    e.Everywhere (TestedSets 1) := by
  induction places with
  | leaf l => exact .leaf l
  | node here below ih =>
    refine .node ?_ ih
    intro position members found enough
    exact here position members found (List.length_pos_iff.mp enough)

end Expr

namespace Program

open Token (Tests SetsTested)

/-- Every count of at least so many members is followed by the membership test that takes them and
    it. -/
def CountsTested (least : Nat) (code : List Instruction) : Prop :=
  ∀ (position members : Nat), code[position]? = some (.count members) → least ≤ members →
    ∃ op, (op = .mem ∨ op = .notMem) ∧ code[position + 1]? = some (.apply op (members + 2))

section Instruction

variable {ids : List Nat} {previous : Option Instruction} {position : Nat} {t : Token} {i : Instruction}
  (made : instruction ids previous position t = .ok i)

include made

theorem instruction_cases :
    ((∀ op arity, t ≠ .op op arity) ∧ ((∃ k, i = .push k) ∨ ∃ slot, i = .load slot)) ∨
    (∃ members, t = .op .set members ∧ i = .count members) ∨
    (∃ op members, (op = .mem ∨ op = .notMem) ∧ t = .op op 2 ∧ previous = some (.count members) ∧
      i = .apply op (members + 2)) ∨
    ∃ op arity, Expr.Plain op ∧ t = .op op arity ∧ i = .apply op arity := by
  cases t with
  | int k =>
    cases made
    exact .inl ⟨nofun, .inl ⟨k, rfl⟩⟩
  | slot n =>
    cases made
    exact .inl ⟨nofun, .inr ⟨n, rfl⟩⟩
  | var v =>
    cases made
    exact .inl ⟨nofun, .inr ⟨_, rfl⟩⟩
  | unknown word => cases made
  | op op arity =>
    rcases operatorInstruction_eq_ok made with ⟨rfl, rfl⟩ | ⟨membership, rfl, members, behind, rfl⟩ |
      ⟨plain, _, rfl⟩
    · exact .inr (.inl ⟨arity, rfl, rfl⟩)
    · exact .inr (.inr (.inl ⟨op, members, membership, rfl, behind, rfl⟩))
    · exact .inr (.inr (.inr ⟨op, arity, plain, rfl, rfl⟩))

theorem instruction_eq_count {members : Nat} : i = .count members ↔ t = .op .set members := by
  rcases instruction_cases made with ⟨leaf, ⟨_, rfl⟩ | ⟨_, rfl⟩⟩ | ⟨_, rfl, rfl⟩ |
    ⟨_, _, membership, rfl, _, rfl⟩ | ⟨_, _, plain, rfl, rfl⟩
  · exact iff_of_false nofun (leaf _ _)
  · exact iff_of_false nofun (leaf _ _)
  · simp
  · rcases membership with rfl | rfl <;> exact iff_of_false nofun nofun
  · simp [plain.1]

theorem count_of_test {op : Operator} {arity : Nat} (membership : op = .mem ∨ op = .notMem)
    (test : i = .apply op arity) :
    ∃ members, previous = some (.count members) ∧ arity = members + 2 := by
  subst test
  rcases instruction_cases made with ⟨_, ⟨_, same⟩ | ⟨_, same⟩⟩ | ⟨_, _, same⟩ |
    ⟨_, members, _, _, behind, same⟩ | ⟨_, _, plain, _, same⟩ <;> cases same
  · exact ⟨members, behind, rfl⟩
  · exact (membership.elim plain.2.1 plain.2.2).elim

/-- Behind a count, a membership test of the stream becomes one that takes the counted members. -/
theorem test_iff_tests {members : Nat} (behind : previous = some (.count members)) :
    (∃ op, (op = .mem ∨ op = .notMem) ∧ i = .apply op (members + 2)) ↔ Tests (some t) := by
  rcases instruction_cases made with ⟨leaf, ⟨_, rfl⟩ | ⟨_, rfl⟩⟩ | ⟨_, rfl, rfl⟩ |
    ⟨op, _, membership, rfl, same, rfl⟩ | ⟨op, arity, ⟨_, notMem, notNotMem⟩, rfl, rfl⟩
  · simp [Tests, leaf]
  · simp [Tests, leaf]
  · simp [Token.tests_op]
  · cases behind.symm.trans same
    simp [Token.tests_op, membership]
  · simp [Token.tests_op, notMem, notNotMem]

end Instruction

section Assembled

variable {ids : List Nat} {ts : List Token} {code : List Instruction}
  (found : assemble ids none 0 0 ts = .ok code)

include found

theorem count_iff {i members : Nat} :
    code[i]? = some (.count members) ↔ ts[i]? = some (.op .set members) := by
  rcases assemble_getElem? found i with ⟨noToken, noInstruction⟩ | ⟨t, _, j, token, _, there, made⟩
  · simp [noToken, noInstruction]
  · rw [token, there, Option.some.injEq, Option.some.injEq, instruction_eq_count made]

theorem test_behind_count {i arity : Nat} {op : Operator} (membership : op = .mem ∨ op = .notMem)
    (test : code[i]? = some (.apply op arity)) :
    ∃ before members, i = before + 1 ∧ code[before]? = some (.count members) ∧ arity = members + 2 := by
  rcases assemble_getElem? found i with ⟨_, none⟩ | ⟨t, previous, j, _, before, there, made⟩
  · rw [none] at test
    cases test
  · have applied := Option.some.inj (there.symm.trans test)
    obtain ⟨members, rfl, same⟩ := count_of_test made membership applied
    cases i with
    | zero => cases before
    | succ i =>
      rw [List.getElem?_cons_succ, List.getElem?_map, Option.map_eq_some_iff] at before
      obtain ⟨_, count, equal⟩ := before
      cases equal
      exact ⟨i, members, rfl, count, same⟩

/-- Where the number of members and two more fit a word of 64 bits for every set of a stream, the
    arities of its membership tests do. -/
theorem arity_lt_size (sizes : ∀ members, .op .set members ∈ ts → members + 2 < UInt64.size)
    {op : Operator} {arity : Nat} (membership : op = .mem ∨ op = .notMem)
    (test : .apply op arity ∈ code) : arity < UInt64.size := by
  obtain ⟨position, place⟩ := List.mem_iff_getElem?.mp test
  obtain ⟨before, members, _, count, rfl⟩ := test_behind_count found membership place
  exact sizes members (List.mem_of_getElem? ((count_iff found).mp count))

theorem test_iff {i members : Nat} (count : code[i]? = some (.count members)) :
    (∃ op, (op = .mem ∨ op = .notMem) ∧ code[i + 1]? = some (.apply op (members + 2))) ↔
      Tests ts[i + 1]? := by
  rcases assemble_getElem? found (i + 1) with ⟨noToken, noInstruction⟩ |
    ⟨t, previous, j, token, before, there, made⟩
  · simp [noToken, noInstruction, Tests]
  · have behind : previous = some (.count members) := by
      rw [List.getElem?_cons_succ, List.getElem?_map, count] at before
      exact (Option.some.inj before).symm
    rw [token, there, ← test_iff_tests made behind]
    simp only [Option.some.injEq]

theorem countsTested_iff (least : Nat) : CountsTested least code ↔ SetsTested least ts := by
  constructor
  · intro tested i members set enough
    have count := (count_iff found).mpr set
    exact (test_iff found count).mp (tested i members count enough)
  · intro tested i members count enough
    exact (test_iff found count).mpr (tested i members ((count_iff found).mp count) enough)

end Assembled

theorem assemble_of_ofTokens {ts : List Token} {shortCircuit : Bool} {p : Program}
    (accepted : ofTokens ts shortCircuit = .ok p) :
    assemble (variableIds ts) none 0 0 ts = .ok p.instructions := by
  obtain ⟨arity, code, lowers, rfl⟩ := ofTokens_eq_ok accepted
  obtain ⟨_, _, assembled⟩ := lowered_eq_ok_iff.mp lowers
  rw [assembled]
  exact congrArg Except.ok (instruction_withJumps shortCircuit code).symm

theorem countsTested_ofExpr {e : Expr} {shortCircuit : Bool} {p : Program}
    (accepted : ofExpr e shortCircuit = .ok p) (least : Nat) :
    CountsTested least p.instructions ↔
      e.Everywhere (Expr.TestedSets least) ∧
        ∀ members, e = .node .set members → members.length < least := by
  obtain ⟨valid, _⟩ := (ofExpr_eq_ok_iff e shortCircuit p).mp accepted
  rw [ofExpr_eq_map] at accepted
  cases stream : ofTokens (e.tokens (streamScope e)) shortCircuit with
  | error error =>
    rw [stream] at accepted
    cases accepted
  | ok q =>
    rw [stream] at accepted
    cases accepted
    exact (countsTested_iff (assemble_of_ofTokens stream) least).trans
      (Expr.setsTested_tokens valid.sized)

/-- Each membership test has its count right before it, and its arity fits a word of 64 bits where
    no set of the stream has `2 ^ 64 - 2` members or more. The converse is not checked: a count has a
    test right behind it where the stream has one there. In the program of an expression the count
    of a set that has members always has its test, and that of an empty set has it when the set is
    what a test is against. -/
theorem counts_tested (shortCircuit : Bool) :
    (∀ (ts : List Token) (p : Program), ofTokens ts shortCircuit = .ok p →
      (∀ (position arity : Nat) (op : Operator), op = .mem ∨ op = .notMem →
        p.instructions[position]? = some (.apply op arity) →
          ∃ before members, position = before + 1 ∧
            p.instructions[before]? = some (.count members) ∧ arity = members + 2) ∧
      ((∀ members, .op .set members ∈ ts → members + 2 < UInt64.size) →
        ∀ (op : Operator) (arity : Nat), op = .mem ∨ op = .notMem →
          .apply op arity ∈ p.instructions → arity < UInt64.size) ∧
      ∀ least, CountsTested least p.instructions ↔ SetsTested least ts) ∧
    ∀ (e : Expr) (p : Program), ofExpr e shortCircuit = .ok p →
      CountsTested 1 p.instructions ∧
        (CountsTested 0 p.instructions ↔
          e.Everywhere (Expr.TestedSets 0) ∧ ∀ members, e ≠ .node .set members) := by
  constructor
  · intro ts p accepted
    have assembled := assemble_of_ofTokens accepted
    refine ⟨fun position arity op membership => test_behind_count assembled membership, ?_,
      countsTested_iff assembled⟩
    intro sizes op arity membership test
    exact arity_lt_size assembled sizes membership test
  · intro e p accepted
    obtain ⟨valid, _⟩ := (ofExpr_eq_ok_iff e shortCircuit p).mp accepted
    refine ⟨(countsTested_ofExpr accepted 1).mpr ⟨Expr.everywhere_testedSets valid.placesSets, ?_⟩, ?_⟩
    · rintro members rfl
      rw [valid.no_members]
      exact Nat.zero_lt_one
    · rw [countsTested_ofExpr accepted 0]
      simp only [Nat.not_lt_zero, imp_false, ne_eq]

def testedPair : List Token := [.slot 0, .int 1, .int 2, .op .set 2, .op .mem 2]

def summedEmptySet : Expr := .node .add [.leaf (.var ⟨4, "x"⟩), .node .set []]

theorem counts_tested_summedEmptySet :
    (∃ p, ofTokens testedPair true = .ok p ∧ CountsTested 0 p.instructions ∧
        .apply .mem 4 ∈ p.instructions ∧ 4 < UInt64.size) ∧
      ∃ p, ofExpr summedEmptySet true = .ok p ∧ CountsTested 1 p.instructions ∧
        ¬ CountsTested 0 p.instructions := by
  have pair : SetsTested 0 testedPair := by
    simp only [testedPair, Token.setsTested_cons]
    refine ⟨nofun, nofun, nofun, ?_, nofun, nofun⟩
    intro _ _ _
    exact ⟨.mem, 2, .inl rfl, rfl⟩
  have sizes : ∀ members, .op .set members ∈ testedPair → members + 2 < UInt64.size := by
    intro members member
    have two : members = 2 := by simpa [testedPair] using member
    rw [two]
    decide
  have sum : ¬ summedEmptySet.Everywhere (Expr.TestedSets 0) := by
    intro tested
    rcases (Expr.everywhere_node.mp tested).1 1 [] rfl (Nat.zero_le _) with ⟨same | same, _⟩ <;>
      cases same
  obtain ⟨streams, exprs⟩ := counts_tested true
  have lowered : ∃ p, ofTokens testedPair true = .ok p ∧
      p.instructions = [.load 0, .push 1, .push 2, .count 2, .apply .mem 4] := ⟨_, rfl, rfl⟩
  obtain ⟨p, first, code⟩ := lowered
  have test : .apply .mem 4 ∈ p.instructions := by simp [code]
  obtain ⟨_, bounded, tested⟩ := streams _ _ first
  have second : ofExpr summedEmptySet true = .ok _ := rfl
  obtain ⟨inhabited, all⟩ := exprs _ _ second
  exact ⟨⟨p, first, (tested 0).mpr pair, test, bounded sizes .mem 4 (.inl rfl) test⟩, _, second, inhabited,
    fun tested => sum (all.mp tested).1⟩

/-- A sum takes a value, the two members of a set and their number. -/
def summedCount : List Token := [.slot 0, .int 1, .int 2, .op .set 2, .op .add 4]

theorem not_countsTested_summedCount :
    (∃ p, ofTokens summedCount true = .ok p ∧ ¬ CountsTested 0 p.instructions ∧
        p.instructions = [.load 0, .push 1, .push 2, .count 2, .apply .add 4] ∧
        p.evaluate [5] = .ok 10) ∧
      ∃ p, ofExpr summedEmptySet true = .ok p ∧ ¬ CountsTested 0 p.instructions ∧
        p.instructions = [.load 0, .count 0, .apply .add 2] ∧ p.evaluate [5] = .ok 5 := by
  refine ⟨⟨_, rfl, ?_, rfl, rfl⟩, _, rfl, ?_, rfl, rfl⟩
  · intro tested
    rcases tested 3 2 rfl (Nat.zero_le _) with ⟨_, rfl | rfl, test⟩ <;> cases test
  · intro tested
    rcases tested 1 0 rfl (Nat.zero_le _) with ⟨_, rfl | rfl, test⟩ <;> cases test

end Program

end Intension
