import PipeLang.Decimal.Format
import PipeLang.Json.Basic

/-!
# JSON text

`Json.compact` writes a value without any blank, `Json.indented` with one item or member a line,
two blanks deeper at each level; empty arrays and objects stay on their line in both.
-/

namespace PipeLang.Json

/-- A hexadecimal number in at least four digits. -/
def hex4 (n : Nat) : List Char :=
  let digits := Nat.toDigits 16 n
  List.replicate (4 - digits.length) '0' ++ digits

/-- What stands for `c` in a JSON string: only the quote, the backslash and the controls below the
space are escaped. -/
def escapeChar (c : Char) : List Char :=
  if c = '"' then ['\\', '"']
  else if c = '\\' then ['\\', '\\']
  else if c = '\n' then ['\\', 'n']
  else if c = '\r' then ['\\', 'r']
  else if c = '\t' then ['\\', 't']
  else if c = '\x08' then ['\\', 'b']
  else if c = '\x0c' then ['\\', 'f']
  else if c.toNat < 0x20 then '\\' :: 'u' :: hex4 c.toNat
  else [c]

/-- A JSON string. -/
def quote (s : String) : String :=
  String.ofList ('"' :: (s.toList.flatMap escapeChar ++ ['"']))

/-- A value without parts; arrays and objects count as empty. -/
def leaf : Json → String
  | null => "null"
  | bool b => if b then "true" else "false"
  | int n => toString n
  | float x => if x.isFinite then FloatFormat.json.write x else "null"
  | str s => quote s
  | arr _ => "[]"
  | obj _ => "\x7b\x7d"

mutual

/-- The value in one line without blanks. -/
def compact : Json → String
  | arr items => "[" ++ ",".intercalate (compactItems items) ++ "]"
  | obj members => "\x7b" ++ ",".intercalate (compactMembers members) ++ "\x7d"
  | other => leaf other

/-- The items of an array, each in one line. -/
def compactItems : List Json → List String
  | [] => []
  | item :: rest => compact item :: compactItems rest

/-- The members of an object, each in one line. -/
def compactMembers : List (String × Json) → List String
  | [] => []
  | (key, value) :: rest => (quote key ++ ":" ++ compact value) :: compactMembers rest

end

/-- Lines between two brackets, `indent` being the line break that leads to the closing one. -/
def bracketed (opening closing indent : String) (lines : List String) : String :=
  opening ++ indent ++ "  " ++ ("," ++ indent ++ "  ").intercalate lines ++ indent ++ closing

mutual

/-- The value over several lines; `indent` is the line break followed by the blanks of the line
that the value starts on. -/
def indentedAt (indent : String) : Json → String
  | arr (first :: rest) =>
    bracketed "[" "]" indent
      (indentedAt (indent ++ "  ") first :: indentedItems (indent ++ "  ") rest)
  | obj ((key, value) :: rest) =>
    bracketed "\x7b" "\x7d" indent
      ((quote key ++ ": " ++ indentedAt (indent ++ "  ") value) ::
        indentedMembers (indent ++ "  ") rest)
  | other => leaf other

/-- The items of an array, each over several lines. -/
def indentedItems (indent : String) : List Json → List String
  | [] => []
  | item :: rest => indentedAt indent item :: indentedItems indent rest

/-- The members of an object, each over several lines. -/
def indentedMembers (indent : String) : List (String × Json) → List String
  | [] => []
  | (key, value) :: rest =>
    (quote key ++ ": " ++ indentedAt indent value) :: indentedMembers indent rest

end

/-- The value over several lines, from the left margin. -/
def indented (json : Json) : String := indentedAt "\n" json

end PipeLang.Json
