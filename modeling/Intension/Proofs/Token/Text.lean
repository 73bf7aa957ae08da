import Mathlib.Data.List.Basic
import Mathlib.Data.List.TakeWhile
import Intension.Token.Lexeme

namespace Intension

section Runs

variable {α : Type} {p : α → Bool} {a : α}

theorem takeWhile_append_stop (stops : p a = false) (l more : List α) :
    (l ++ a :: more).takeWhile p = l.takeWhile p := by
  induction l with
  | nil => simp [stops]
  | cons b l ih => rw [List.cons_append, List.takeWhile_cons, List.takeWhile_cons, ih]

theorem dropWhile_append_stop (stops : p a = false) (l more : List α) :
    (l ++ a :: more).dropWhile p = l.dropWhile p ++ a :: more := by
  induction l with
  | nil => simp [stops]
  | cons b l ih =>
    rw [List.cons_append, List.dropWhile_cons, List.dropWhile_cons, ih]
    split <;> rfl

end Runs

theorem not_isDigit_of_isLower {c : Char} (lower : c.isLower) : c.isDigit = false := by
  have least : 'a'.val ≤ c.val := of_decide_eq_true (Bool.and_eq_true_iff.mp lower).1
  by_contra digit
  have digit : c.isDigit = true := Bool.not_eq_false _ ▸ digit
  have most : c.val ≤ '9'.val := of_decide_eq_true (Bool.and_eq_true_iff.mp digit).2
  exact absurd (UInt32.le_trans least most) (by decide)

theorem isAlpha_of_isLower {c : Char} (lower : c.isLower) : c.isAlpha :=
  Bool.or_eq_true_iff.mpr (.inr lower)

namespace Operator

theorem ofName?_name (op : Operator) : ofName? op.name = some op := by
  cases op <;> rfl

theorem name_ne_nil (op : Operator) : op.name.toList ≠ [] := by
  cases op <;> decide

theorem isLower_name (op : Operator) : ∀ c ∈ op.name.toList, c.isLower :=
  List.all_eq_true.mp (by cases op <;> rfl)

end Operator

namespace Lexeme

/-- A blank continues no lexeme. -/
theorem stops_of_isBlank {c : Char} (blank : isBlank c) :
    c.isDigit = false ∧ c.isLower = false ∧ continuesWord c = false := by
  simp only [isBlank, Bool.or_eq_true, beq_iff_eq] at blank
  rcases blank with (((rfl | rfl) | rfl) | rfl) | rfl <;> decide

theorem leads_of_isLower {c : Char} (lower : c.isLower) :
    c.isDigit = false ∧ (c == '-') = false ∧ (c == '%') = false ∧ startsWord c := by
  refine ⟨not_isDigit_of_isLower lower, ?_, ?_, by simp [startsWord, isAlpha_of_isLower lower]⟩
  · rw [beq_eq_false_iff_ne]
    rintro rfl
    cases lower
  · rw [beq_eq_false_iff_ne]
    rintro rfl
    cases lower

theorem not_isBlank {c : Char} (lead : c.isDigit ∨ c.isLower) : isBlank c = false := by
  by_contra blank
  obtain ⟨digit, lower, _⟩ := stops_of_isBlank (Bool.not_eq_false _ ▸ blank)
  rw [digit, lower] at lead
  simp at lead

theorem tail_append_blank {space : Char} (blank : isBlank space) (first : Char)
    (rest more : List Char) : tail first (rest ++ space :: more) = tail first rest := by
  obtain ⟨digit, lower, word⟩ := stops_of_isBlank blank
  simp only [tail, takeWhile_append_stop digit, dropWhile_append_stop digit,
    takeWhile_append_stop lower, takeWhile_append_stop word]

theorem length_tail_le (first : Char) (rest : List Char) : (tail first rest).length ≤ rest.length := by
  have taken (p : Char → Bool) (l : List Char) : (l.takeWhile p).length ≤ l.length :=
    (List.takeWhile_prefix p).length_le
  unfold tail
  split
  · have parts := congrArg List.length (List.takeWhile_append_dropWhile (p := Char.isDigit) (l := rest))
    have letters := taken Char.isLower (rest.dropWhile Char.isDigit)
    rw [List.length_append] at parts ⊢
    omega
  · split
    · exact taken _ rest
    · split
      · exact taken _ rest
      · exact Nat.zero_le _

theorem split_nil : split [] = [] := by
  rw [split]

theorem split_blank {c : Char} (blank : isBlank c) (cs : List Char) : split (c :: cs) = split cs := by
  rw [split, if_pos blank]

theorem split_visible {c : Char} (visible : isBlank c = false) (cs : List Char) :
    split (c :: cs) = (c :: tail c cs) :: split (cs.drop (tail c cs).length) := by
  rw [split, if_neg (by simp [visible])]

/-- Lexemes do not cross a blank. -/
theorem split_append_blank {space : Char} (blank : isBlank space) (text more : List Char) :
    split (text ++ space :: more) = split text ++ split more := by
  induction text using split.induct with
  | case1 => rw [List.nil_append, split_blank blank, split_nil, List.nil_append]
  | case2 c cs leading ih => rw [List.cons_append, split_blank leading, ih, split_blank leading]
  | case3 c cs visible ih =>
    have visible : isBlank c = false := by simpa using visible
    rw [List.cons_append, split_visible visible, tail_append_blank blank,
      List.drop_append_of_le_length (length_tail_le c cs), ih, split_visible visible, List.cons_append]

theorem split_eq_singleton {first : Char} {rest : List Char} (visible : isBlank first = false)
    (whole : tail first rest = rest) : split (first :: rest) = [first :: rest] := by
  rw [split_visible visible, whole, List.drop_length, split_nil]

theorem digits_then_letters {digits letters : List Char} (digit : ∀ c ∈ digits, c.isDigit)
    (lower : ∀ c ∈ letters, c.isLower) :
    (digits ++ letters).takeWhile Char.isDigit = digits ∧
      (digits ++ letters).dropWhile Char.isDigit = letters := by
  rw [List.takeWhile_append_of_pos digit, List.dropWhile_append_of_pos digit]
  cases letters with
  | nil => exact ⟨List.append_nil _, rfl⟩
  | cons c cs =>
    have stops := not_isDigit_of_isLower (lower c List.mem_cons_self)
    simp [stops]

theorem split_numbered {digits letters : List Char} (nonempty : digits ≠ [])
    (digit : ∀ c ∈ digits, c.isDigit) (lower : ∀ c ∈ letters, c.isLower) :
    split (digits ++ letters) = [digits ++ letters] := by
  obtain ⟨first, rest, rfl⟩ := List.exists_cons_of_ne_nil nonempty
  have leading := digit first List.mem_cons_self
  obtain ⟨taken, left⟩ :=
    digits_then_letters (fun c member => digit c (List.mem_cons_of_mem _ member)) lower
  refine split_eq_singleton (not_isBlank (.inl leading)) ?_
  change tail first (rest ++ letters) = rest ++ letters
  rw [tail, if_pos leading, taken, left, List.takeWhile_eq_self_iff.mpr lower]

theorem token?_numbered {digits letters : List Char} (nonempty : digits ≠ [])
    (digit : ∀ c ∈ digits, c.isDigit) (lower : ∀ c ∈ letters, c.isLower) :
    token? (digits ++ letters) =
      if letters.isEmpty then integer? (number digits) else counted? (number digits) letters := by
  obtain ⟨taken, left⟩ := digits_then_letters digit lower
  obtain ⟨first, rest, rfl⟩ := List.exists_cons_of_ne_nil nonempty
  rw [List.cons_append] at taken left ⊢
  simp only [token?, digit first List.mem_cons_self, taken, left, ite_true]
  cases letters <;> rfl

theorem split_marked {mark : Char} {digits : List Char} (marked : mark = '-' ∨ mark = '%')
    (digit : ∀ c ∈ digits, c.isDigit) : split (mark :: digits) = [mark :: digits] := by
  have whole := List.takeWhile_eq_self_iff.mpr digit
  rcases marked with rfl | rfl <;> exact split_eq_singleton rfl whole

theorem split_word {word : List Char} (nonempty : word ≠ []) (lower : ∀ c ∈ word, c.isLower) :
    split word = [word] := by
  obtain ⟨first, rest, rfl⟩ := List.exists_cons_of_ne_nil nonempty
  have leading := lower first List.mem_cons_self
  obtain ⟨digit, minus, percent, starts⟩ := leads_of_isLower leading
  have letters : ∀ c ∈ rest, continuesWord c := by
    intro c member
    have alpha := isAlpha_of_isLower (lower c (List.mem_cons_of_mem _ member))
    simp [continuesWord, Char.isAlphanum, alpha]
  refine split_eq_singleton (not_isBlank (.inr leading)) ?_
  simp only [tail, digit, minus, percent, starts, Bool.false_eq_true, Bool.or_false, ite_false, ite_true]
  exact List.takeWhile_eq_self_iff.mpr letters

theorem token?_word {word : List Char} (nonempty : word ≠ []) (lower : ∀ c ∈ word, c.isLower) :
    token? word = uncounted? word := by
  obtain ⟨first, rest, rfl⟩ := List.exists_cons_of_ne_nil nonempty
  obtain ⟨digit, minus, percent, _⟩ := leads_of_isLower (lower first List.mem_cons_self)
  simp only [token?, digit, minus, percent, Bool.false_eq_true, Bool.false_and, ite_false]

theorem token?_negative {digits : List Char} (nonempty : digits ≠ []) :
    token? ('-' :: digits) = integer? (-(number digits)) := by
  cases digits with
  | nil => contradiction
  | cons c cs => rfl

theorem token?_slot {digits : List Char} (nonempty : digits ≠ []) :
    token? ('%' :: digits) = slot? (number digits) := by
  cases digits with
  | nil => contradiction
  | cons c cs => rfl

theorem number_repr (n : Nat) : number n.repr.toList = n := by
  rw [Nat.toList_repr, number, Nat.ofDigitChars_ten_toDigits]

theorem repr_ne_nil (n : Nat) : n.repr.toList ≠ [] := by
  rw [Nat.toList_repr]
  exact Nat.toDigits_ne_nil

theorem isDigit_repr (n : Nat) : ∀ c ∈ n.repr.toList, c.isDigit := by
  intro c member
  rw [Nat.toList_repr] at member
  exact Nat.isDigit_of_mem_toDigits (by decide) (by decide) member

end Lexeme

namespace Token

open Lexeme

/-- Text is read back token by token. -/
theorem ofText_render (ts : List Token) :
    ofText (render ts) = ts.flatMap (fun t => ofText t.text) := by
  induction ts using render.induct with
  | case1 => rw [render, ofText, String.toList_empty, split_nil, List.map_nil, List.flatMap_nil]
  | case2 t => rw [render, List.flatMap_singleton]
  | case3 t u ts ih =>
    have space : (t.text ++ " " ++ render (u :: ts)).toList =
        t.text.toList ++ ' ' :: (render (u :: ts)).toList := by simp
    rw [render, ofText, space, split_append_blank rfl, List.map_append, List.flatMap_cons, ← ih]
    rfl

/-- The tokens that text keeps. Names are not among them, numbers are within their bits, and an
    operator that is written without a count has its only arity. -/
def Storable : Token → Prop
  | int _ => True
  | slot i => i < UInt32.size
  | var _ => False
  | op o count =>
    match o.arity with
    | .exactly n => count = n
    | .atLeast _ => count < UInt64.size
  | unknown _ => False

theorem storable_op {o : Operator} {count : Nat} (accepted : o.arity.accepts count)
    (bound : count < UInt64.size) : (op o count).Storable := by
  simp only [Storable]
  split
  · rename_i n fixed
    rw [fixed] at accepted
    exact of_decide_eq_true accepted
  · exact bound

theorem ofText_eq_singleton {text : String} {t : Token} (whole : split text.toList = [text.toList])
    (found : token? text.toList = some t) : ofText text = [t] := by
  rw [ofText, whole, List.map_singleton, token, found]

theorem ofText_int (k : Word) : ofText (int k).text = [int k] := by
  have range : integer? k.toInt = some (int k) := by
    rw [integer?, Word.ofInt?_toInt]
    rfl
  rw [text, Int.repr_eq_if]
  split
  · rename_i nonnegative
    have lower : ∀ c ∈ ([] : List Char), c.isLower := by simp
    have whole := split_numbered (repr_ne_nil k.toInt.toNat) (isDigit_repr _) lower
    have found := token?_numbered (repr_ne_nil k.toInt.toNat) (isDigit_repr _) lower
    rw [List.append_nil] at whole found
    rw [List.isEmpty_nil, if_pos rfl, number_repr, Int.toNat_of_nonneg nonnegative, range] at found
    exact ofText_eq_singleton whole found
  · rename_i negative
    have marked : ("-" ++ (-k.toInt).toNat.repr).toList = '-' :: (-k.toInt).toNat.repr.toList := by simp
    refine ofText_eq_singleton ?_ ?_
    · rw [marked]
      exact split_marked (.inl rfl) (isDigit_repr _)
    · rw [marked, token?_negative (repr_ne_nil _), number_repr, Int.toNat_of_nonneg (by omega), Int.neg_neg,
        range]

theorem ofText_slot {i : Nat} (bound : i < UInt32.size) : ofText (slot i).text = [slot i] := by
  have marked : (slot i).text.toList = '%' :: i.repr.toList := by simp [text]
  refine ofText_eq_singleton ?_ ?_
  · rw [marked]
    exact split_marked (.inr rfl) (isDigit_repr _)
  · rw [marked, token?_slot (repr_ne_nil _), number_repr, Lexeme.slot?, if_pos bound]

theorem ofText_counted {op : Operator} {count : Nat} (variadic : op.isVariadic)
    (bound : count < UInt64.size) : ofText (Token.op op count).text = [.op op count] := by
  have counted : (Token.op op count).text.toList = count.repr.toList ++ op.name.toList := by
    rw [text, if_pos variadic, String.toList_append]
  refine ofText_eq_singleton ?_ ?_
  · rw [counted]
    exact split_numbered (repr_ne_nil _) (isDigit_repr _) op.isLower_name
  · rw [counted, token?_numbered (repr_ne_nil _) (isDigit_repr _) op.isLower_name, number_repr,
      if_neg (by simpa using op.name_ne_nil), counted?, if_pos bound, String.ofList_toList,
      Operator.ofName?_name]
    rfl

theorem ofText_uncounted {op : Operator} (fixed : op.isVariadic = false) :
    ofText (Token.op op (impliedArity op)).text = [.op op (impliedArity op)] := by
  have uncounted : (Token.op op (impliedArity op)).text = op.name := by
    rw [text, if_neg (by simp [fixed])]
  rw [uncounted]
  refine ofText_eq_singleton (split_word op.name_ne_nil op.isLower_name) ?_
  rw [token?_word op.name_ne_nil op.isLower_name, uncounted?, String.ofList_toList, Operator.ofName?_name]
  rfl

theorem Storable.ofText_text {t : Token} (storable : t.Storable) : ofText t.text = [t] := by
  cases t with
  | int k => exact ofText_int k
  | slot i => exact ofText_slot storable
  | var v => exact storable.elim
  | op o count =>
    cases arity : o.arity with
    | exactly n =>
      simp only [Storable, arity] at storable
      have implied : count = impliedArity o := by rw [storable, impliedArity, arity]
      rw [implied]
      exact ofText_uncounted (by rw [Operator.isVariadic, arity])
    | atLeast n =>
      simp only [Storable, arity] at storable
      exact ofText_counted (by rw [Operator.isVariadic, arity]) storable
  | unknown word => exact storable.elim

theorem ofText_render_of_storable {ts : List Token} (storable : ∀ t ∈ ts, t.Storable) :
    ofText (render ts) = ts := by
  rw [ofText_render, List.flatMap_congr (fun t member => (storable t member).ofText_text),
    List.flatMap_singleton']

example : render [.int (-5), .slot 12, .op .set 0, .op .add 10, .op .ite 3] =
    "-5 %12 0set 10add if" := by
  decide

end Token

end Intension
