import Intension.Expr.Order
import Intension.Expr.Text
import Intension.Proofs.Expr.Skeleton
import Intension.Proofs.Token.Text

namespace Intension

/-- What functional notation puts between words. -/
def isPunctuation (c : Char) : Bool := c == '(' || c == ')' || c == ','

theorem isPunctuation_eq_false {c : Char} (plain : c.isDigit ∨ c.isLower) : isPunctuation c = false := by
  by_contra mark
  simp only [isPunctuation, Bool.not_eq_false, Bool.or_eq_true, beq_iff_eq] at mark
  rcases mark with (rfl | rfl) | rfl <;> rcases plain with plain | plain <;> cases plain

theorem Operator.name_inj {op other : Operator} (same : op.name = other.name) : op = other := by
  rw [← Option.some_inj, ← ofName?_name, same, ofName?_name]

theorem Operator.not_isPunctuation_name (op : Operator) :
    ∀ c ∈ op.name.toList, isPunctuation c = false :=
  fun c member => isPunctuation_eq_false (.inr (op.isLower_name c member))

/-- A name that is read as one word, and neither as a number nor as a parameter. -/
structure IsName (name : String) : Prop where
  nonempty : name ≠ ""
  word : ∀ c ∈ name.toList, isPunctuation c = false
  lead : ∀ c ∈ name.toList.head?, c.isDigit = false ∧ c ≠ '-' ∧ c ≠ '%'

namespace Leaf

/-- Wildcards are left out, since variables may be named like them. -/
def Legible : Leaf → Prop
  | var v => IsName v.name
  | const _ => True
  | param _ => True
  | wild _ => False

/-- The leaf without what is not printed of it. -/
def anonymous : Leaf → Leaf
  | var v => .var ⟨0, v.name⟩
  | l => l

theorem text_const (k : Word) :
    (const k).text.toList = k.toInt.toNat.repr.toList ∨
      (const k).text.toList = '-' :: (-k.toInt).toNat.repr.toList := by
  rw [text, Int.repr_eq_if]
  split
  · exact .inl rfl
  · exact .inr (by simp)

theorem text_param (i : Nat) : (param i).text.toList = '%' :: i.repr.toList := by
  simp [text]

theorem text_anonymous (l : Leaf) : l.anonymous.text = l.text := by
  cases l <;> rfl

/-- The rank of the leaves that start with a character. -/
def leadRank (c : Char) : Nat :=
  if c.isDigit || c == '-' then 3 else if c == '%' then 1 else 0

theorem Legible.leadRank_eq {l : Leaf} (legible : l.Legible) :
    l.text.toList.head?.map leadRank = some l.rank := by
  cases l with
  | var v =>
    obtain ⟨c, rest, name⟩ : ∃ c rest, v.name.toList = c :: rest :=
      List.exists_cons_of_ne_nil (by simpa using IsName.nonempty legible)
    obtain ⟨digit, minus, percent⟩ :=
      IsName.lead legible c (by rw [name, List.head?_cons]; rfl)
    simp [text, name, leadRank, digit, minus, percent, rank]
  | const k =>
    rcases text_const k with written | written
    · obtain ⟨c, rest, digits⟩ := List.exists_cons_of_ne_nil (Lexeme.repr_ne_nil k.toInt.toNat)
      have digit := Lexeme.isDigit_repr k.toInt.toNat c (by rw [digits]; exact List.mem_cons_self)
      rw [written, digits]
      simp [leadRank, digit, rank]
    · simp [written, leadRank, rank]
  | param i => simp [text_param, leadRank, rank]
  | wild w => exact legible.elim

theorem Legible.text_ne_nil {l : Leaf} (legible : l.Legible) : l.text.toList ≠ [] := by
  intro none
  have lead := legible.leadRank_eq
  rw [none] at lead
  cases lead

theorem Legible.not_isPunctuation {l : Leaf} (legible : l.Legible) :
    ∀ c ∈ l.text.toList, isPunctuation c = false := by
  have digits (n : Nat) : ∀ c ∈ n.repr.toList, isPunctuation c = false :=
    fun c member => isPunctuation_eq_false (.inl (Lexeme.isDigit_repr n c member))
  cases l with
  | var v => exact IsName.word legible
  | const k =>
    rcases text_const k with written | written <;> rw [written]
    · exact digits _
    · exact List.forall_mem_cons.mpr ⟨rfl, digits _⟩
  | param i =>
    rw [text_param]
    exact List.forall_mem_cons.mpr ⟨rfl, digits i⟩
  | wild w => exact legible.elim

theorem text_inj {l m : Leaf} (left : l.Legible) (right : m.Legible) (same : l.text = m.text) :
    l.anonymous = m.anonymous := by
  have sort : some l.rank = some m.rank := by rw [← left.leadRank_eq, same, right.leadRank_eq]
  cases l <;> cases m <;> cases sort
  case var v w => exact congrArg (fun name => Leaf.var ⟨0, name⟩) same
  case const k n =>
    have read := Token.ofText_int k
    rw [show (Token.int k).text = (Token.int n).text from same, Token.ofText_int] at read
    cases read
    rfl
  case param i j =>
    have digits := (text_param i).symm.trans ((congrArg String.toList same).trans (text_param j))
    rw [← Lexeme.number_repr i, (List.cons.inj digits).2, Lexeme.number_repr]
  case wild => exact left.elim

end Leaf

namespace Expr

/-- The expression without what is not printed of it. -/
def anonymous (e : Expr) : Expr := e.mapLeaves Leaf.anonymous

theorem anonymous_node (op : Operator) (args : List Expr) :
    (Expr.node op args).anonymous = .node op (args.map anonymous) := mapLeaves_node _ op args

/-- The text of the operands behind the first. -/
def othersText (es : List Expr) : List Char := es.flatMap (fun e => ',' :: e.text.toList)

theorem textList_cons (e : Expr) (es : List Expr) :
    (textList (e :: es)).toList = e.text.toList ++ othersText es := by
  induction es generalizing e with
  | nil => rw [textList, othersText, List.flatMap_nil, List.append_nil]
  | cons f es ih =>
    rw [textList, String.toList_append, String.toList_append, ih, othersText, othersText, List.flatMap_cons]
    simp

theorem text_node (op : Operator) (args : List Expr) :
    (Expr.node op args).text.toList = op.name.toList ++ '(' :: ((textList args).toList ++ [')']) := by
  simp [text]

theorem word_append_inj {u v r s : List Char} (left : ∀ c ∈ u, isPunctuation c = false)
    (right : ∀ c ∈ v, isPunctuation c = false) (first : ∀ c ∈ r.head?, isPunctuation c)
    (second : ∀ c ∈ s.head?, isPunctuation c) (same : u ++ r = v ++ s) : u = v ∧ r = s := by
  induction u generalizing v with
  | nil =>
    cases v with
    | nil => exact ⟨rfl, same⟩
    | cons c v =>
      have mark := first c (by rw [show r = c :: (v ++ s) from same]; rfl)
      rw [right c List.mem_cons_self] at mark
      cases mark
  | cons c u ih =>
    cases v with
    | nil =>
      have mark := second c (by rw [show s = c :: (u ++ r) from same.symm]; rfl)
      rw [left c List.mem_cons_self] at mark
      cases mark
    | cons d v =>
      obtain ⟨rfl, tails⟩ := List.cons.inj same
      obtain ⟨rfl, rest⟩ := ih (fun e member => left e (List.mem_cons_of_mem _ member))
        (fun e member => right e (List.mem_cons_of_mem _ member)) tails
      exact ⟨rfl, rest⟩

/-- What may stand behind an operand. -/
def Closes (rest : List Char) : Prop := ∀ c ∈ rest.head?, c = ')' ∨ c = ','

theorem Closes.isPunctuation {rest : List Char} (closes : Closes rest) :
    ∀ c ∈ rest.head?, isPunctuation c := by
  intro c member
  rcases closes c member with rfl | rfl <;> rfl

theorem not_closes_open (rest : List Char) : ¬ Closes ('(' :: rest) := by
  intro closes
  rcases closes '(' rfl with same | same <;> cases same

theorem closes_others (es : List Expr) (rest : List Char) : Closes (othersText es ++ ')' :: rest) := by
  intro c member
  cases es <;> cases member
  · exact .inl rfl
  · exact .inr rfl

/-- The text of an expression is told apart from what stands behind it. -/
def Told (a : Expr) : Prop :=
  ∀ (b : Expr) (r s : List Char), (∀ l ∈ b.leaves, l.Legible) → Closes r → Closes s →
    a.text.toList ++ r = b.text.toList ++ s → a.anonymous = b.anonymous ∧ r = s

theorem othersText_append_inj {es fs : List Expr} {r s : List Char} (each : ∀ e ∈ es, e.Told)
    (legible : ∀ f ∈ fs, ∀ l ∈ f.leaves, l.Legible)
    (same : othersText es ++ ')' :: r = othersText fs ++ ')' :: s) :
    es.map anonymous = fs.map anonymous ∧ r = s := by
  induction es generalizing fs with
  | nil =>
    cases fs with
    | nil => exact ⟨rfl, (List.cons.inj same).2⟩
    | cons f fs => cases (List.cons.inj same).1
  | cons e es ih =>
    cases fs with
    | nil => cases (List.cons.inj same).1
    | cons f fs =>
      have behind : e.text.toList ++ (othersText es ++ ')' :: r) =
          f.text.toList ++ (othersText fs ++ ')' :: s) := by
        simpa [othersText] using same
      obtain ⟨head, tails⟩ := each e List.mem_cons_self f _ _ (legible f List.mem_cons_self)
        (closes_others es r) (closes_others fs s) behind
      obtain ⟨rest, ends⟩ := ih (fun g member => each g (List.mem_cons_of_mem _ member))
        (fun g member => legible g (List.mem_cons_of_mem _ member)) tails
      exact ⟨by rw [List.map_cons, List.map_cons, head, rest], ends⟩

/-- No operand starts like the end of an operand list. -/
theorem text_ne_close {e : Expr} (legible : ∀ l ∈ e.leaves, l.Legible) (rest more : List Char) :
    e.text.toList ++ rest ≠ ')' :: more := by
  have starts {word behind : List Char} (nonempty : word ≠ [])
      (plain : ∀ c ∈ word, isPunctuation c = false) : word ++ behind ≠ ')' :: more := by
    intro same
    obtain ⟨c, word, rfl⟩ := List.exists_cons_of_ne_nil nonempty
    cases same
    cases plain ')' List.mem_cons_self
  cases e with
  | leaf l =>
    have readable := legible l (List.mem_singleton.mpr rfl)
    exact starts readable.text_ne_nil readable.not_isPunctuation
  | node op args =>
    rw [text_node, List.append_assoc]
    exact starts op.name_ne_nil op.not_isPunctuation_name

theorem textList_append_inj {as bs : List Expr} {r s : List Char} (each : ∀ a ∈ as, a.Told)
    (left : ∀ a ∈ as, ∀ l ∈ a.leaves, l.Legible)
    (right : ∀ b ∈ bs, ∀ l ∈ b.leaves, l.Legible)
    (same : (textList as).toList ++ ')' :: r = (textList bs).toList ++ ')' :: s) :
    as.map anonymous = bs.map anonymous ∧ r = s := by
  cases as with
  | nil =>
    cases bs with
    | nil => exact ⟨rfl, (List.cons.inj same).2⟩
    | cons b bs =>
      rw [textList_cons, List.append_assoc] at same
      exact absurd same.symm (text_ne_close (right b List.mem_cons_self) _ _)
  | cons a as =>
    cases bs with
    | nil =>
      rw [textList_cons, List.append_assoc] at same
      exact absurd same (text_ne_close (left a List.mem_cons_self) _ _)
    | cons b bs =>
      -- With a separator in front, the first operand is like the others.
      apply othersText_append_inj each right
      simpa [textList_cons, othersText] using same

theorem told {a : Expr} (legible : ∀ l ∈ a.leaves, l.Legible) : a.Told := by
  have marked (rest : List Char) : ∀ c ∈ ('(' :: rest).head?, isPunctuation c := by
    rintro c ⟨⟩
    rfl
  -- A word ends where punctuation begins, and only behind an operator is that an opening bracket.
  induction a using Expr.induction with
  | leaf l =>
    have readable := legible l (List.mem_singleton.mpr rfl)
    intro b r s other first second same
    cases b with
    | leaf m =>
      have clear := other m (List.mem_singleton.mpr rfl)
      obtain ⟨words, rest⟩ := word_append_inj readable.not_isPunctuation clear.not_isPunctuation
        first.isPunctuation second.isPunctuation same
      exact ⟨congrArg Expr.leaf (Leaf.text_inj readable clear (String.toList_inj.mp words)), rest⟩
    | node g bs =>
      rw [text_node, List.append_assoc] at same
      obtain ⟨_, rest⟩ := word_append_inj readable.not_isPunctuation g.not_isPunctuation_name
        first.isPunctuation (marked _) same
      exact absurd (rest ▸ first) (not_closes_open _)
  | node f as ih =>
    intro b r s other first second same
    rw [text_node, List.append_assoc] at same
    cases b with
    | leaf m =>
      have clear := other m (List.mem_singleton.mpr rfl)
      obtain ⟨_, rest⟩ := word_append_inj f.not_isPunctuation_name clear.not_isPunctuation
        (marked _) second.isPunctuation same
      exact absurd (rest ▸ second) (not_closes_open _)
    | node g bs =>
      rw [text_node, List.append_assoc] at same
      obtain ⟨words, rest⟩ := word_append_inj f.not_isPunctuation_name g.not_isPunctuation_name
        (marked _) (marked _) same
      cases Operator.name_inj (String.toList_inj.mp words)
      have operands : (textList as).toList ++ ')' :: r = (textList bs).toList ++ ')' :: s := by
        simpa using rest
      have readable : ∀ a ∈ as, ∀ l ∈ a.leaves, l.Legible :=
        fun a member l inside => legible l (mem_leaves_node.mpr ⟨a, member, inside⟩)
      have clear : ∀ b ∈ bs, ∀ l ∈ b.leaves, l.Legible :=
        fun b member l inside => other l (mem_leaves_node.mpr ⟨b, member, inside⟩)
      obtain ⟨matched, ends⟩ := textList_append_inj (fun a member => ih a member (readable a member))
        readable clear operands
      rw [anonymous_node, anonymous_node, matched]
      exact ⟨rfl, ends⟩

theorem textList_map {f : Leaf → Leaf} {es : List Expr}
    (each : ∀ e ∈ es, (e.mapLeaves f).text = e.text) : textList (es.map (mapLeaves f)) = textList es := by
  cases es with
  | nil => rfl
  | cons e es =>
    have others : othersText (es.map (mapLeaves f)) = othersText es := by
      rw [othersText, List.flatMap_map]
      exact List.flatMap_congr fun g member => by rw [each g (List.mem_cons_of_mem _ member)]
    rw [← String.toList_inj, List.map_cons, textList_cons, textList_cons, each e List.mem_cons_self, others]

theorem text_anonymous (e : Expr) : e.anonymous.text = e.text := by
  induction e using Expr.induction with
  | leaf l => exact l.text_anonymous
  | node op args ih => rw [anonymous, mapLeaves_node, text, text, textList_map ih]

/-- Functional notation is unambiguous but for the numbers of the variables, which are not printed. -/
theorem text_eq_iff {a b : Expr} (left : ∀ l ∈ a.leaves, l.Legible) (right : ∀ l ∈ b.leaves, l.Legible) :
    a.text = b.text ↔ a.anonymous = b.anonymous := by
  constructor
  · intro same
    have closed : Closes [] := by
      intro c member
      cases member
    exact (told left b [] [] right closed closed (by rw [same])).1
  · intro same
    rw [← a.text_anonymous, same, b.text_anonymous]

example : (node .add [.leaf (.var ⟨0, "x,y"⟩)]).text =
    (node .add [.leaf (.var ⟨0, "x"⟩), .leaf (.var ⟨1, "y"⟩)]).text := by
  decide

/-- Variables that are named like the operators around them. -/
def namesakes (first second : Nat) : Expr :=
  .node .add [.leaf (.var ⟨first, "add"⟩), .node .add [.leaf (.var ⟨second, "set"⟩), .node .set []],
    .leaf (.const (-5)), .leaf (.param 3)]

theorem legible_namesakes (first second : Nat) : ∀ l ∈ (namesakes first second).leaves, l.Legible := by
  have add : IsName "add" := ⟨by simp, by simp [isPunctuation], by simp⟩
  have set : IsName "set" := ⟨by simp, by simp [isPunctuation], by simp⟩
  simp [namesakes, leaves, leavesList, Leaf.Legible, add, set]

theorem text_eq_iff_namesakes :
    (∀ l ∈ (namesakes 0 1).leaves, l.Legible) ∧ (∀ l ∈ (namesakes 7 7).leaves, l.Legible) ∧
      ((namesakes 0 1).text = (namesakes 7 7).text ↔
        (namesakes 0 1).anonymous = (namesakes 7 7).anonymous) ∧
      (namesakes 0 1).text = "add(add,add(set,set()),-5,%3)" :=
  ⟨legible_namesakes 0 1, legible_namesakes 7 7,
    text_eq_iff (legible_namesakes 0 1) (legible_namesakes 7 7), by decide⟩

end Expr

end Intension
