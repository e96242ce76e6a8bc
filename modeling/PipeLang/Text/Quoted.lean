import PipeLang.Text.Visible

/-!
# Quoted strings

`quote` writes a text between double quotes so that it can be read back as a string literal: the
quote, the backslash and the five usual control characters have short escapes, every other
character without a visible form, and every one that joins onto its neighbour, is written by its
number.  The single quote stands for itself.
-/

namespace PipeLang.Text

/-- A character by its number: `\u`, then the hexadecimal code point in braces. -/
def numericEscape (c : Char) : List Char :=
  '\\' :: 'u' :: '{' :: (Nat.toDigits 16 c.toNat ++ ['}'])

/-- What stands for `c` between the quotes. -/
def escapeChar (c : Char) : List Char :=
  if c = '"' then ['\\', '"']
  else if c = '\\' then ['\\', '\\']
  else if c = '\n' then ['\\', 'n']
  else if c = '\r' then ['\\', 'r']
  else if c = '\t' then ['\\', 't']
  else if c = '\x00' then ['\\', '0']
  else if isJoining c || isInvisible c then numericEscape c
  else [c]

/-- The text between double quotes, character by character. -/
def quoteChars (text : List Char) : List Char :=
  '"' :: (text.flatMap escapeChar ++ ['"'])

/-- The text as a string literal. -/
def quote (text : String) : String := String.ofList (quoteChars text.toList)

end PipeLang.Text
