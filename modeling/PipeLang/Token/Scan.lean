import PipeLang.Token.Basic

/-!
# Classes of lexemes

Every token belongs to one class, and every class is a regular set of texts.  `scan` looks at the
start of a text and answers with the class of the longest lexeme there and the number of its
characters after the first, so that a lexeme is never empty.  Where no lexeme starts, `unscanned`
is the number of further characters that are skipped with the first one: those that an unclosed
string or special operator has taken in.

All classes are read with `takeWhile` on their alphabet, which is what makes the match the longest
one.
-/

namespace PipeLang

/-- The classes of lexemes. -/
inductive LexClass where
  /-- Blanks, which are skipped. -/
  | blank
  /-- A token with a fixed spelling that is no word. -/
  | mark (token : Token)
  /-- A comment up to the end of its line. -/
  | comment
  /-- An operator between percent signs. -/
  | special
  /-- A plain or qualified name, or a word of the language. -/
  | word
  /-- A name before a colon; there a word of the language is a name like any other. -/
  | label
  /-- A number with a fraction or an exponent. -/
  | float
  /-- A whole number in a base; other bases than ten follow a two-letter mark. -/
  | int (base : Nat)
  /-- A string between quotes. -/
  | str
deriving DecidableEq

namespace LexClass

/-! ### Alphabets -/

/-- A horizontal blank; line breaks are tokens. -/
def isBlank (c : Char) : Bool := c == ' ' || c == '\t' || c == '\r'

/-- A letter that a name starts with. -/
def startsName (c : Char) : Bool := c.isAlpha || c == '_'

/-- A character inside a name. -/
def continuesName (c : Char) : Bool := c.isAlphanum || c == '_' || c == '.'

/-- A decimal digit or an underscore between digits. -/
def continuesNumber (c : Char) : Bool := c.isDigit || c == '_'

/-- A digit of the base or an underscore. -/
def continuesBase (base : Nat) (c : Char) : Bool :=
  if base = 2 then c == '0' || c == '1' || c == '_'
  else if base = 8 then ('0' ≤ c && c ≤ '7') || c == '_'
  else c.isDigit || ('a' ≤ c && c ≤ 'f') || ('A' ≤ c && c ≤ 'F') || c == '_'

/-- A character inside a special operator. -/
def continuesSpecial (c : Char) : Bool := c != '%' && c != '\n' && c != ' '

/-! ### How far a class reaches -/

/-- The number of leading characters that satisfy `p`. -/
def run (p : Char → Bool) (text : List Char) : Nat := (text.takeWhile p).length

/-- The length of a qualification of a name, two colons and another name, or zero. -/
def qualification : List Char → Nat
  | ':' :: ':' :: c :: rest => if startsName c then run continuesName rest + 3 else 0
  | _ => 0

/-- The length of a name after its first letter. -/
def nameTail (text : List Char) : Nat :=
  let plain := run continuesName text
  plain + qualification (text.drop plain)

/-- A name or word after its first letter. -/
def wordTail (text : List Char) : LexClass × Nat :=
  let n := nameTail text
  match text.drop n with
  | ':' :: _ => (label, n)
  | _ => (word, n)

/-- The length of an exponent of a number, or zero. -/
def exponentPart : List Char → Nat
  | c :: rest =>
    if c = 'e' ∨ c = 'E' then
      let sign := match rest with
        | '+' :: _ => 1
        | '-' :: _ => 1
        | _ => 0
      let digits := run continuesNumber (rest.drop sign)
      if digits = 0 then 0 else 1 + sign + digits
    else 0
  | [] => 0

/-- The length of a fraction of a number, a point and a digit at least, or zero. -/
def fractionPart : List Char → Nat
  | '.' :: c :: rest => if c.isDigit then run continuesNumber rest + 2 else 0
  | _ => 0

/-- A decimal number after its first digit. -/
def decimalTail (text : List Char) : LexClass × Nat :=
  let whole := run continuesNumber text
  let fraction := fractionPart (text.drop whole)
  let exponent := exponentPart (text.drop (whole + fraction))
  if fraction + exponent = 0 then (int 10, whole) else (float, whole + fraction + exponent)

/-- The base that a letter after a leading zero announces. -/
def base? (c : Char) : Option Nat :=
  if c = 'b' then some 2 else if c = 'o' then some 8 else if c = 'x' then some 16 else none

/-- A number after its first digit `c`. -/
def numberTail (c : Char) (text : List Char) : LexClass × Nat :=
  match text with
  | letter :: rest =>
    match base? letter with
    | some base =>
      let digits := run (continuesBase base) rest
      if c = '0' ∧ 0 < digits then (int base, digits + 1) else decimalTail text
    | none => decimalTail text
  | [] => decimalTail text

/-- How far a string reaches after its opening quote, and whether it is closed.  A backslash
takes the character after it along, unless that is a line break.  A numbered escape cut off right
after its opening brace is given up: the stretch then ends with the backslash. -/
def stringTail : List Char → Nat × Bool
  | [] => (0, false)
  | '"' :: _ => (1, true)
  | ['\\'] => (1, false)
  | ['\\', 'u', '{'] => (1, false)
  | '\\' :: c :: rest =>
    if c = '\n' then (1, false)
    else
      let (n, closed) := stringTail rest
      (n + 2, closed)
  | _ :: rest =>
    let (n, closed) := stringTail rest
    (n + 1, closed)

@[simp] theorem stringTail_nil : stringTail [] = (0, false) := by rw [stringTail]

/-- How far a special operator reaches after its first percent sign, and whether it is closed. -/
def specialTail (text : List Char) : Nat × Bool :=
  let n := run continuesSpecial text
  match text.drop n with
  | '%' :: _ => (n + 1, true)
  | _ => (n, false)

/-! ### The longest lexeme -/

/-- A token of fixed spelling: the longest one that starts with `c`. -/
def mark? (c : Char) (rest : List Char) : Option (Token × Nat) :=
  match c, rest with
  | '\n', _ => some (.newline, 0)
  | '{', _ => some (.leftBrace, 0)
  | '}', _ => some (.rightBrace, 0)
  | '(', _ => some (.leftParen, 0)
  | ')', _ => some (.rightParen, 0)
  | '[', _ => some (.leftBracket, 0)
  | ']', _ => some (.rightBracket, 0)
  | ',', _ => some (.comma, 0)
  | ';', _ => some (.semicolon, 0)
  | ':', _ => some (.colon, 0)
  | '$', _ => some (.dollar, 0)
  | '\\', _ => some (.backslash, 0)
  | '.', _ => some (.dot, 0)
  | '<', '<' :: '-' :: _ => some (.superArrow, 2)
  | '<', '-' :: _ => some (.leftArrow, 1)
  | '<', '=' :: _ => some (.lessEq, 1)
  | '<', _ => some (.less, 0)
  | '>', '=' :: _ => some (.greaterEq, 1)
  | '>', _ => some (.greater, 0)
  | '=', '=' :: _ => some (.eqEq, 1)
  | '!', '=' :: _ => some (.bangEq, 1)
  | '!', _ => some (.bang, 0)
  | '&', '&' :: _ => some (.andAnd, 1)
  | '|', '|' :: _ => some (.orOr, 1)
  | '+', _ => some (.plus, 0)
  | '-', _ => some (.minus, 0)
  | '*', _ => some (.star, 0)
  | '/', _ => some (.slash, 0)
  | _, _ => none

/-- The class of the longest lexeme of the text `c :: rest`, with its number of characters after
`c`. -/
def scan (c : Char) (rest : List Char) : Option (LexClass × Nat) :=
  if isBlank c then some (blank, run isBlank rest)
  else if c = '#' then some (comment, run (· != '\n') rest)
  else if startsName c then some (wordTail rest)
  else if c.isDigit then some (numberTail c rest)
  else if c = '.' ∧ fractionPart (c :: rest) ≠ 0 then
    let fraction := fractionPart (c :: rest) - 1
    some (float, fraction + exponentPart (rest.drop fraction))
  else if c = '%' then
    match specialTail rest with
    | (n, true) => some (special, n)
    | (_, false) => none
  else if c = '"' then
    match stringTail rest with
    | (n, true) => some (str, n)
    | (_, false) => none
  else (mark? c rest).map fun (token, n) => (mark token, n)

/-- At a percent sign there is a lexeme if the special operator is closed. -/
theorem scan_percent_iff {rest : List Char} {cls : LexClass} {n : Nat} :
    scan '%' rest = some (cls, n) ↔ specialTail rest = (n, true) ∧ cls = special := by
  have hclass : isBlank '%' = false ∧ startsName '%' = false ∧ '%'.isDigit = false := by decide
  rcases htail : specialTail rest with ⟨m, _ | _⟩
  · simp [scan, hclass, htail]
  · simp [scan, hclass, htail, and_comm, eq_comm]

/-- At a quote there is a lexeme if the string is closed. -/
theorem scan_quote_iff {rest : List Char} {cls : LexClass} {n : Nat} :
    scan '"' rest = some (cls, n) ↔ stringTail rest = (n, true) ∧ cls = str := by
  have hclass : isBlank '"' = false ∧ startsName '"' = false ∧ '"'.isDigit = false := by decide
  rcases htail : stringTail rest with ⟨m, _ | _⟩
  · simp [scan, hclass, htail]
  · simp [scan, hclass, htail, and_comm, eq_comm]

/-- Where no lexeme starts: how many characters after `c` an unclosed lexeme has taken in. -/
def unscanned (c : Char) (rest : List Char) : Nat :=
  if c = '%' then (specialTail rest).1
  else if c = '"' then (stringTail rest).1
  else 0

end LexClass

end PipeLang
