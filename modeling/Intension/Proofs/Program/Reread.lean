import Intension.Proofs.Program.Streams
import Intension.Proofs.Token.Text

namespace Intension

namespace Lexeme

theorem tail_tail (first : Char) (rest : List Char) : tail first (tail first rest) = tail first rest := by
  unfold tail
  split
  · obtain ⟨digits, letters⟩ := digits_then_letters (fun _ => List.mem_takeWhile_imp)
      (fun _ => List.mem_takeWhile_imp)
    rw [digits, letters, List.takeWhile_idem]
  · split
    · exact List.takeWhile_idem
    · split
      · exact List.takeWhile_idem
      · rfl

/-- A lexeme is the only one in itself. -/
theorem split_of_mem_split {lexeme text : List Char} (member : lexeme ∈ split text) :
    split lexeme = [lexeme] := by
  induction text using split.induct with
  | case1 =>
    rw [split_nil] at member
    contradiction
  | case2 c cs blank ih =>
    rw [split_blank blank] at member
    exact ih member
  | case3 c cs visible ih =>
    have visible : isBlank c = false := by simpa using visible
    rw [split_visible visible] at member
    rcases List.mem_cons.mp member with rfl | member
    · exact split_eq_singleton visible (tail_tail c cs)
    · exact ih member

end Lexeme

namespace Token

/-- What the text of a token is read as. Text has no count of an operator with a fixed arity. -/
def reread : Token → Token
  | op o count => op o (if o.isVariadic then count else Lexeme.impliedArity o)
  | t => t

/-- The counts of a stream are those that text keeps. -/
def FixedCounts (ts : List Token) : Prop :=
  ∀ (o : Operator) (count n : Nat), op o count ∈ ts → o.arity = .exactly n → count = n

theorem text_reread (t : Token) : t.reread.text = t.text := by
  cases t with
  | op o count =>
    simp only [reread, text]
    split <;> rfl
  | _ => rfl

theorem reread_op_eq_self_iff (o : Operator) (count : Nat) :
    (op o count).reread = op o count ↔ ∀ n, o.arity = .exactly n → count = n := by
  cases arity : o.arity with
  | exactly n =>
    simp only [reread, Operator.isVariadic, Lexeme.impliedArity, arity]
    simp [eq_comm]
  | atLeast n =>
    simp only [reread, Operator.isVariadic, arity]
    simp

theorem map_reread_eq_self_iff (ts : List Token) : ts.map reread = ts ↔ FixedCounts ts := by
  have each : ts.map reread = ts ↔ ∀ t ∈ ts, t.reread = t := by
    conv_lhs => rhs; rw [← List.map_id ts]
    exact List.map_inj_left
  rw [each]
  constructor
  · intro same o count n member
    exact (reread_op_eq_self_iff o count).mp (same _ member) n
  · intro fixed t member
    cases t with
    | op o count => exact (reread_op_eq_self_iff o count).mpr (fun n => fixed o count n member)
    | _ => rfl

theorem storable_reread_op (o : Operator) {count : Nat} (bound : count < UInt64.size) :
    (op o count).reread.Storable := by
  cases arity : o.arity <;> simp [reread, Storable, Operator.isVariadic, Lexeme.impliedArity, arity, bound]

end Token

namespace Lexeme

open Token

theorem storable_reread_of_token? {lexeme : List Char} {t : Token} (found : token? lexeme = some t) :
    t.reread.Storable := by
  have ofInteger {n : Int} (read : integer? n = some t) : t.reread.Storable := by
    obtain ⟨k, _, rfl⟩ := Option.map_eq_some_iff.mp read
    trivial
  have ofSlot {n : Nat} (read : Lexeme.slot? n = some t) : t.reread.Storable := by
    obtain ⟨bound, same⟩ := Option.ite_none_right_eq_some.mp read
    cases same
    exact bound
  have ofCount {n : Nat} {name : List Char} (read : counted? n name = some t) : t.reread.Storable := by
    obtain ⟨bound, read⟩ := Option.ite_none_right_eq_some.mp read
    obtain ⟨op, _, rfl⟩ := Option.map_eq_some_iff.mp read
    exact storable_reread_op op bound
  have ofWord {name : List Char} (read : uncounted? name = some t) : t.reread.Storable := by
    obtain ⟨op, _, rfl⟩ := Option.map_eq_some_iff.mp read
    exact storable_reread_op op (by cases op <;> decide)
  unfold token? at found
  split at found
  · cases found
  · split at found
    · split at found
      · exact ofInteger found
      · exact ofCount found
    · split at found
      · exact ofInteger found
      · split at found
        · exact ofSlot found
        · exact ofWord found

/-- The text of a lexeme that is not understood is the lexeme. -/
theorem ofText_text_token {lexeme : List Char} (alone : split lexeme = [lexeme]) :
    ofText (token lexeme).text = [(token lexeme).reread] := by
  cases found : token? lexeme with
  | none =>
    simp only [token, found, text, reread]
    rw [ofText, String.toList_ofList, alone, List.map_singleton, token, found]
  | some t =>
    simp only [token, found]
    rw [← text_reread]
    exact (storable_reread_of_token? found).ofText_text

end Lexeme

/-- Text that is written from text is read back token by token. -/
theorem Token.ofText_render_ofText (source : String) :
    ofText (render (ofText source)) = (ofText source).map reread := by
  rw [ofText_render, List.map_eq_flatMap]
  refine List.flatMap_congr fun t member => ?_
  obtain ⟨lexeme, inside, rfl⟩ := List.mem_map.mp member
  exact Lexeme.ofText_text_token (Lexeme.split_of_mem_split inside)

namespace Program

theorem fixedCounts_of_ofTokens {ts : List Token} {shortCircuit : Bool} {p : Program}
    (accepted : ofTokens ts shortCircuit = .ok p) : Token.FixedCounts ts := by
  obtain ⟨arity, code, lowers, _⟩ := ofTokens_eq_ok accepted
  obtain ⟨_, _, assembled⟩ := lowered_eq_ok_iff.mp lowers
  intro op count n member exactly
  obtain ⟨i, there⟩ := List.getElem?_of_mem member
  rcases assemble_getElem? assembled i with ⟨absent, _⟩ | ⟨t, before, j, present, _, _, made⟩
  · rw [absent] at there
    cases there
  · rw [present] at there
    cases there
    have taken := accepts_of_operatorInstruction made
    rw [exactly] at taken
    exact of_decide_eq_true taken

/-- A stream that was read from text, written and read again, is the same but for the counts of
    operators with a fixed arity. Only text that has no program has others than their arity there,
    and it may have one once it is written again. -/
theorem ofText_reread (source : String) :
    Token.ofText (Token.render (Token.ofText source)) = (Token.ofText source).map Token.reread ∧
      (Token.ofText (Token.render (Token.ofText source)) = Token.ofText source ↔
        Token.FixedCounts (Token.ofText source)) ∧
      ∀ shortCircuit : Bool,
        (Token.FixedCounts (Token.ofText source) →
          ofText (Token.render (Token.ofText source)) shortCircuit = ofText source shortCircuit) ∧
        (¬ Token.FixedCounts (Token.ofText source) →
          ∃ error, ofText source shortCircuit = .error error) := by
  have written := Token.ofText_render_ofText source
  refine ⟨written, by rw [written, Token.map_reread_eq_self_iff], fun shortCircuit => ⟨?_, ?_⟩⟩
  · intro fixed
    rw [ofText, written, (Token.map_reread_eq_self_iff _).mpr fixed, ofText]
  · intro other
    cases compiled : ofText source shortCircuit with
    | error error => exact ⟨error, rfl⟩
    | ok p => exact absurd (fixedCounts_of_ofTokens compiled) other

/-- Leading zeros, a negative zero and an implied count are not written again. -/
def looseText : String := "%00,-0 add\tneg"

/-- A count that the arity contradicts. -/
def countedText : String := "%0 3neg"

theorem ofText_looseText : Token.ofText looseText = [.slot 0, .int 0, .op .add 2, .op .neg 1] := by
  have lexemes : Lexeme.split looseText.toList =
      ["%00".toList, "-0".toList, "add".toList, "neg".toList] := by
    simp [looseText, Lexeme.split, Lexeme.tail, Lexeme.isBlank, Lexeme.startsWord, Lexeme.continuesWord]
  rw [Token.ofText, lexemes]
  rfl

theorem ofText_countedText : Token.ofText countedText = [.slot 0, .op .neg 3] := by
  have lexemes : Lexeme.split countedText.toList = ["%0".toList, "3neg".toList] := by
    simp [countedText, Lexeme.split, Lexeme.tail, Lexeme.isBlank]
  rw [Token.ofText, lexemes]
  rfl

theorem not_fixedCounts_countedText : ¬ Token.FixedCounts (Token.ofText countedText) := by
  intro fixed
  rw [ofText_countedText] at fixed
  exact absurd (fixed .neg 3 1 (by simp) rfl) (by decide)

theorem ofText_reread_looseText :
    Token.FixedCounts (Token.ofText looseText) ∧
      Token.render (Token.ofText looseText) = "%0 0 2add neg" ∧
      ofText "%0 0 2add neg" true = ofText looseText true ∧
      (∃ p, ofText looseText true = .ok p) ∧
      ¬ Token.FixedCounts (Token.ofText countedText) ∧
      ∃ error, ofText countedText true = .error error := by
  have fixed : Token.FixedCounts (Token.ofText looseText) := by
    rw [ofText_looseText, ← Token.map_reread_eq_self_iff]
    rfl
  have rendered : Token.render (Token.ofText looseText) = "%0 0 2add neg" := by
    rw [ofText_looseText]
    decide
  refine ⟨fixed, rendered, ?_, ?_, not_fixedCounts_countedText,
    ((ofText_reread countedText).2.2 true).2 not_fixedCounts_countedText⟩
  · rw [← rendered]
    exact ((ofText_reread looseText).2.2 true).1 fixed
  · rw [ofText, ofText_looseText]
    exact ⟨_, rfl⟩

theorem ofText_render_countedText :
    Token.ofText (Token.render (Token.ofText countedText)) ≠ Token.ofText countedText ∧
      ofText countedText true = .error (.badArity .neg 3) ∧
      ∃ p, ofText (Token.render (Token.ofText countedText)) true = .ok p := by
  have again : Token.ofText (Token.render (Token.ofText countedText)) = [.slot 0, .op .neg 1] := by
    rw [Token.ofText_render_ofText, ofText_countedText]
    rfl
  refine ⟨?_, ?_, ?_⟩
  · rw [again, ofText_countedText]
    decide
  · rw [ofText, ofText_countedText]
    rfl
  · rw [ofText, again]
    exact ⟨_, rfl⟩

end Program

end Intension
