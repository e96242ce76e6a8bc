import PipeLang.Decimal.Format
import PipeLang.Text.Quoted
import PipeLang.Text.Span

/-!
# Tokens

A `Lexeme` is a token together with the text that it was read from and the span of that text.
`Token.describe` is the form in which tokens are listed.  A `LexError` is a stretch of text that
starts no token.
-/

namespace PipeLang

/-- A token of the language, with the value of a literal, the name of an identifier and the
spelling of a special operator. -/
inductive Token where
  | newline
  | comment
  | leftBrace
  | rightBrace
  | leftParen
  | rightParen
  | leftBracket
  | rightBracket
  | comma
  | semicolon
  | colon
  | dollar
  | backslash
  | dot
  | superArrow
  | leftArrow
  | plus
  | minus
  | star
  | slash
  | andAnd
  | orOr
  | bang
  | lessEq
  | less
  | greaterEq
  | greater
  | eqEq
  | bangEq
  /-- An operator between percent signs; the spelling includes them. -/
  | special (op : String)
  | functionWord
  | ifWord
  | elseWord
  | trueWord
  | falseWord
  | nullWord
  | float (x : Float)
  | int (n : Int64)
  | str (s : String)
  | ident (name : String)
deriving DecidableEq, Inhabited

namespace Token

/-- A token in a listing: its kind, with the spelling or the value where there is one. -/
def describe : Token → String
  | newline => "Newline"
  | comment => "CommentLine"
  | leftBrace => "LBrace"
  | rightBrace => "RBrace"
  | leftParen => "LParen"
  | rightParen => "RParen"
  | leftBracket => "LBracket"
  | rightBracket => "RBracket"
  | comma => "Comma"
  | semicolon => "Semicolon"
  | colon => "Colon"
  | dollar => "Dollar"
  | backslash => "Backslash"
  | dot => "Dot"
  | superArrow => "SuperArrow"
  | leftArrow => "LeftArrow"
  | plus => "Plus"
  | minus => "Minus"
  | star => "Star"
  | slash => "Slash"
  | andAnd => "AndAnd"
  | orOr => "OrOr"
  | bang => "Bang"
  | lessEq => "LessEq"
  | less => "Less"
  | greaterEq => "GreaterEq"
  | greater => "Greater"
  | eqEq => "EqEq"
  | bangEq => "BangEq"
  | special op => "Special(" ++ Text.quote op ++ ")"
  | functionWord => "Function"
  | ifWord => "If"
  | elseWord => "Else"
  | trueWord => "True"
  | falseWord => "False"
  | nullWord => "Null"
  | float x => "Float(" ++ FloatFormat.listed.write x ++ ")"
  | int n => "Int(" ++ toString n.toInt ++ ")"
  | str s => "Str(" ++ Text.quote s ++ ")"
  | ident _ => "Ident"

end Token

/-- A token where it stands in the source. -/
structure Lexeme where
  token : Token
  /-- Where the text stands. -/
  span : Span
  /-- The text that the token was read from. -/
  text : String
deriving DecidableEq, Inhabited

/-- A stretch of text that starts no token. -/
structure LexError where
  span : Span
  text : String
deriving DecidableEq, Inhabited

/-- The text of the message. -/
def LexError.message (e : LexError) : String :=
  "unrecognized input " ++ Text.quote e.text ++ " at offset " ++ toString e.span.offset

end PipeLang
