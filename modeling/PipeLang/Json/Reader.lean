import PipeLang.Decimal.Reading
import PipeLang.Json.Basic

/-!
# Reading JSON text

`Json.parse?` reads one JSON value, blanks around it allowed.  A number without fraction and
exponent that fits 64 bits is a whole number, every other one the float nearest to its value; a
number beyond the range of floats is refused.  Every step of the recursion consumes a character or
returns, so twice the length of the text bounds its depth.
-/

namespace PipeLang.Json

/-- Blanks between the tokens of JSON. -/
def isBlank (c : Char) : Bool := c == ' ' || c == '\n' || c == '\r' || c == '\t'

/-- The text from its first character that is no blank. -/
def skipBlanks (text : List Char) : List Char := text.dropWhile isBlank

/-- The rest of the text after a word that it must start with. -/
def afterWord? : List Char → List Char → Option (List Char)
  | [], text => some text
  | w :: word, c :: text => if w = c then afterWord? word text else none
  | _ :: _, [] => none

/-! ### Strings -/

/-- Four hexadecimal digits. -/
def unit? : List Char → Option (Nat × List Char)
  | a :: b :: c :: d :: rest =>
    let digits := [a, b, c, d]
    if digits.all fun x => x.isDigit || ('a' ≤ x && x ≤ 'f') || ('A' ≤ x && x ≤ 'F') then
      some (positionalValue 16 digits, rest)
    else none
  | _ => none

/-- The character after `\u`: one unit, or a surrogate pair of two. -/
def unicodeEscape? (text : List Char) : Option (Char × List Char) := do
  let (high, rest) ← unit? text
  if high < 0xd800 || 0xe000 ≤ high then some (Char.ofNat high, rest)
  else if 0xdc00 ≤ high then none
  else match rest with
    | '\\' :: 'u' :: more =>
      let (low, rest) ← unit? more
      if 0xdc00 ≤ low && low < 0xe000 then
        some (Char.ofNat (0x10000 + (high - 0xd800) * 0x400 + (low - 0xdc00)), rest)
      else none
    | _ => none

/-- The rest of a string after its opening quote, with what follows the closing one; `done` holds
the characters read, last first. -/
def stringTail? (done : List Char) : Nat → List Char → Option (String × List Char)
  | 0, _ => none
  | _ + 1, [] => none
  | fuel + 1, c :: rest =>
    if c = '"' then some (String.ofList done.reverse, rest)
    else if c.toNat < 0x20 then none
    else if c ≠ '\\' then stringTail? (c :: done) fuel rest
    else match rest with
      | '"' :: rest => stringTail? ('"' :: done) fuel rest
      | '\\' :: rest => stringTail? ('\\' :: done) fuel rest
      | '/' :: rest => stringTail? ('/' :: done) fuel rest
      | 'b' :: rest => stringTail? ('\x08' :: done) fuel rest
      | 'f' :: rest => stringTail? ('\x0c' :: done) fuel rest
      | 'n' :: rest => stringTail? ('\n' :: done) fuel rest
      | 'r' :: rest => stringTail? ('\r' :: done) fuel rest
      | 't' :: rest => stringTail? ('\t' :: done) fuel rest
      | 'u' :: rest => do
        let (x, rest) ← unicodeEscape? rest
        stringTail? (x :: done) fuel rest
      | _ => none

/-! ### Numbers -/

/-- The exponent of a number with what follows it; zero if there is none. -/
def exponent? (text : List Char) : Option (Option Int × List Char) :=
  match text with
  | [] => some (none, [])
  | c :: rest =>
    if c = 'e' ∨ c = 'E' then
      let (negative, rest) := match rest with
        | '-' :: rest => (true, rest)
        | '+' :: rest => (false, rest)
        | _ => (false, rest)
      let digits := rest.takeWhile Char.isDigit
      if digits = [] then none
      else
        let size : Int := positionalValue 10 digits
        some (some (if negative then -size else size), rest.dropWhile Char.isDigit)
    else some (none, text)

/-- The fraction digits of a number with what follows them; none if there is no point. -/
def fraction? (text : List Char) : Option (Option (List Char) × List Char) :=
  match text with
  | '.' :: rest =>
    let digits := rest.takeWhile Char.isDigit
    if digits = [] then none else some (some digits, rest.dropWhile Char.isDigit)
  | _ => some (none, text)

/-- A number, `negative` if a minus sign has been read. -/
def number? (negative : Bool) (text : List Char) : Option (Json × List Char) := do
  let digits := text.takeWhile Char.isDigit
  let rest := text.dropWhile Char.isDigit
  if digits = [] || (digits.head? == some '0' && digits ≠ ['0']) then none
  else
    let (fraction, rest) ← fraction? rest
    let (power, rest) ← exponent? rest
    let size := positionalValue 10 digits
    let whole : Bool := fraction.isNone && power.isNone &&
      (if negative then decide (0 < size) && decide (size ≤ 1 <<< 63) else decide (size < 1 <<< 64))
    if whole then some (.int (if negative then -(size : Int) else size), rest)
    else
      let places := fraction.getD []
      let decimal : Decimal :=
        ⟨positionalValue 10 (digits ++ places), power.getD 0 - places.length⟩
      let x := decimal.toFloat
      if x.isInf then none else some (.float (if negative then -x else x), rest)

/-! ### Values -/

mutual

/-- A value and what follows it. -/
def value? : Nat → List Char → Option (Json × List Char)
  | 0, _ => none
  | fuel + 1, text =>
    match skipBlanks text with
    | [] => none
    | 'n' :: rest => (afterWord? "ull".toList rest).map (Json.null, ·)
    | 't' :: rest => (afterWord? "rue".toList rest).map (Json.bool true, ·)
    | 'f' :: rest => (afterWord? "alse".toList rest).map (Json.bool false, ·)
    | '"' :: rest => (stringTail? [] (rest.length + 1) rest).map fun (s, rest) => (Json.str s, rest)
    | '[' :: rest =>
      match skipBlanks rest with
      | ']' :: rest => some (.arr [], rest)
      | rest => (items? fuel rest).map fun (items, rest) => (Json.arr items, rest)
    | '{' :: rest =>
      match skipBlanks rest with
      | '}' :: rest => some (.obj [], rest)
      | rest => (members? fuel rest).map fun (members, rest) => (Json.obj members, rest)
    | '-' :: rest => number? true rest
    | rest => number? false rest

/-- The items of an array, at least one, with what follows the closing bracket. -/
def items? : Nat → List Char → Option (List Json × List Char)
  | 0, _ => none
  | fuel + 1, text => do
    let (item, rest) ← value? fuel text
    match skipBlanks rest with
    | ']' :: rest => some ([item], rest)
    | ',' :: rest =>
      let (items, rest) ← items? fuel rest
      some (item :: items, rest)
    | _ => none

/-- The members of an object, at least one, with what follows the closing brace. -/
def members? : Nat → List Char → Option (List (String × Json) × List Char)
  | 0, _ => none
  | fuel + 1, text => do
    match skipBlanks text with
    | '"' :: rest =>
      let (key, rest) ← stringTail? [] (rest.length + 1) rest
      match skipBlanks rest with
      | ':' :: rest =>
        let (value, rest) ← value? fuel rest
        match skipBlanks rest with
        | '}' :: rest => some ([(key, value)], rest)
        | ',' :: rest =>
          let (members, rest) ← members? fuel rest
          some ((key, value) :: members, rest)
        | _ => none
      | _ => none
    | _ => none

end

/-- The value that a whole text stands for. -/
def parse? (text : String) : Option Json := do
  let chars := text.toList
  let (json, rest) ← value? (2 * chars.length + 1) chars
  if skipBlanks rest = [] then some json else none

end PipeLang.Json
