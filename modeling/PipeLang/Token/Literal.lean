import PipeLang.Decimal.Reading
import PipeLang.Token.Scan
import PipeLang.Word

/-!
# What a lexeme stands for

`LexClass.read?` is the token of a lexeme.  A lexeme can belong to its class and still stand for
nothing: a whole number of more than 63 bits or without a digit, a float whose exponent has no
digit, a string with an escape that names no character.
-/

namespace PipeLang

/-! ### Numbers -/

namespace LexClass

/-- The digits without the underscores between them. -/
def dropUnderscores (text : List Char) : List Char := text.filter (· != '_')

/-- The value of a whole number. -/
def readInt? (base : Nat) (text : List Char) : Option Int64 :=
  let digits := dropUnderscores (if base = 10 then text else text.drop 2)
  if digits = [] then none else int64? (positionalValue base digits)

/-- The float nearest to a number with a fraction or an exponent. -/
def readFloat? (text : List Char) : Option Float :=
  let text := dropUnderscores text
  let isMark := fun c => c == 'e' || c == 'E'
  let mantissa := text.takeWhile (fun c => !isMark c)
  let whole := mantissa.takeWhile (· != '.')
  let fraction := (mantissa.dropWhile (· != '.')).drop 1
  let digits := positionalValue 10 (whole ++ fraction)
  match text.dropWhile (fun c => !isMark c) with
  | [] => some (Decimal.toFloat ⟨digits, -fraction.length⟩)
  | _ :: power =>
    let negative := power.head? == some '-'
    let power := if negative || power.head? == some '+' then power.drop 1 else power
    if power = [] then none
    else
      let size : Int := positionalValue 10 power
      some (Decimal.toFloat ⟨digits, (if negative then -size else size) - fraction.length⟩)

/-! ### Strings -/

/-- A blank that may surround the number of a character. -/
def isSpace (c : Char) : Bool :=
  let n := c.toNat
  decide (9 ≤ n && n ≤ 13 || n = 0x20 || n = 0x85 || n = 0xa0 || n = 0x1680 ||
    0x2000 ≤ n && n ≤ 0x200a || n = 0x2028 || n = 0x2029 || n = 0x202f || n = 0x205f || n = 0x3000)

/-- The text without the blanks at either end. -/
def trim (text : List Char) : List Char :=
  ((text.dropWhile isSpace).reverse.dropWhile isSpace).reverse

/-- The character whose hexadecimal number stands between braces; one plus sign may precede the
digits. -/
def character? (text : List Char) : Option Char :=
  let number := trim text
  let digits := if number.head? = some '+' then number.drop 1 else number
  if digits ≠ [] ∧ digits.all (fun c => continuesBase 16 c && c != '_') then
    let n := positionalValue 16 digits
    if h : n.isValidChar then some (Char.ofNatAux n h) else none
  else none

/-- The characters that the inside of a string stands for.  After a backslash `n`, `r`, `t` and
`0` name controls, `u` leads to a number in braces, and every other character stands for itself.
A number that is not closed by a brace reaches to the end. -/
def unescape? (text : List Char) : Option (List Char) :=
  match text with
  | [] => some []
  | '\\' :: 'u' :: '{' :: rest =>
    match character? (rest.takeWhile (· != '}')) with
    | some c => (unescape? ((rest.dropWhile (· != '}')).drop 1)).map (c :: ·)
    | none => none
  | '\\' :: c :: rest =>
    if c = 'u' then none
    else
      let x := if c = 'n' then '\n' else if c = 'r' then '\r' else if c = 't' then '\t'
        else if c = '0' then '\x00' else c
      (unescape? rest).map (x :: ·)
  | ['\\'] => none
  | c :: rest => (unescape? rest).map (c :: ·)
termination_by text.length
decreasing_by
  · have := (List.dropWhile_sublist (l := rest) (· != '}')).length_le
    simp only [List.length_drop, List.length_cons]
    omega
  all_goals
    simp only [List.length_cons]
    omega

@[simp] theorem unescape?_nil : unescape? [] = some [] := by rw [unescape?]

/-- The characters of a string between its quotes. -/
def readString? (text : List Char) : Option String :=
  (unescape? ((text.drop 1).dropLast)).map String.ofList

/-! ### Any lexeme -/

/-- A word of the language, or else a name. -/
def readWord (name : String) : Token :=
  if name = "function" then .functionWord
  else if name = "if" then .ifWord
  else if name = "else" then .elseWord
  else if name = "true" then .trueWord
  else if name = "false" then .falseWord
  else if name = "null" then .nullWord
  else .ident name

/-- The token of a lexeme; none if it stands for nothing.  Blanks are no lexemes. -/
def read? (cls : LexClass) (text : List Char) : Option Token :=
  match cls with
  | blank => none
  | mark token => some token
  | comment => some .comment
  | special => some (.special (String.ofList text))
  | word => some (readWord (String.ofList text))
  | label => some (.ident (String.ofList text))
  | float => (readFloat? text).map .float
  | int base => (readInt? base text).map .int
  | str => (readString? text).map .str

end LexClass

end PipeLang
