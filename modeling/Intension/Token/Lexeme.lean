import Intension.Token.Basic

namespace Intension

namespace Lexeme

def isBlank (c : Char) : Bool := c == ' ' || c == '\t' || c == '\r' || c == '\n' || c == ','

def startsWord (c : Char) : Bool := c.isAlpha || c == '_'

def continuesWord (c : Char) : Bool := c.isAlphanum || c == '_'

/-- What follows the first character in its lexeme. Digits take further digits and then lower case
    letters, a sign or a percent mark takes digits, and a word runs as far as it can. Any other
    character stands alone. -/
def tail (first : Char) (rest : List Char) : List Char :=
  if first.isDigit then
    rest.takeWhile Char.isDigit ++ (rest.dropWhile Char.isDigit).takeWhile Char.isLower
  else if first == '-' || first == '%' then rest.takeWhile Char.isDigit
  else if startsWord first then rest.takeWhile continuesWord
  else []

/-- The lexemes of a text without the blanks between them. -/
def split : List Char → List (List Char)
  | [] => []
  | c :: cs =>
    if isBlank c then split cs else (c :: tail c cs) :: split (cs.drop (tail c cs).length)
termination_by cs => cs.length
decreasing_by all_goals simp only [List.length_cons, List.length_drop]; omega

def number (digits : List Char) : Nat := Nat.ofDigitChars 10 digits 0

/-- Without a count, an operator has its only arity or else two operands. -/
def impliedArity (op : Operator) : Nat :=
  match op.arity with
  | .exactly n => n
  | .atLeast _ => 2

def integer? (n : Int) : Option Token := (Word.ofInt? n).map Token.int

/-- Slots have 32 bits. -/
def slot? (n : Nat) : Option Token := if n < UInt32.size then some (.slot n) else none

/-- Counts have 64 bits. -/
def counted? (count : Nat) (name : List Char) : Option Token :=
  if count < UInt64.size then (Operator.ofName? (String.ofList name)).map (Token.op · count)
  else none

def uncounted? (name : List Char) : Option Token :=
  (Operator.ofName? (String.ofList name)).map (fun op => .op op (impliedArity op))

def token? : List Char → Option Token
  | [] => none
  | first :: rest =>
    if first.isDigit then
      let digits := (first :: rest).takeWhile Char.isDigit
      match (first :: rest).dropWhile Char.isDigit with
      | [] => integer? (number digits)
      | name => counted? (number digits) name
    else if first == '-' && !rest.isEmpty then integer? (-(number rest))
    else if first == '%' && !rest.isEmpty then slot? (number rest)
    else uncounted? (first :: rest)

/-- A number out of range or a word that names no operator is kept as written. -/
def token (lexeme : List Char) : Token :=
  match token? lexeme with
  | some t => t
  | none => .unknown (String.ofList lexeme)

end Lexeme

def Token.ofText (source : String) : List Token := (Lexeme.split source.toList).map Lexeme.token

end Intension
