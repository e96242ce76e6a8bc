import PipeLang.Token.Basic

/-!
# Spellings

`Token.spelling` is a text that stands for a token: the only one for a mark, a word or a name, a
canonical one for a number or a string.
-/

namespace PipeLang.Token

/-- A text of this token. -/
def spelling : Token → String
  | newline => "\n"
  | comment => "#"
  | leftBrace => "\x7b"
  | rightBrace => "\x7d"
  | leftParen => "("
  | rightParen => ")"
  | leftBracket => "["
  | rightBracket => "]"
  | comma => ","
  | semicolon => ";"
  | colon => ":"
  | dollar => "$"
  | backslash => "\\"
  | dot => "."
  | superArrow => "<<-"
  | leftArrow => "<-"
  | plus => "+"
  | minus => "-"
  | star => "*"
  | slash => "/"
  | andAnd => "&&"
  | orOr => "||"
  | bang => "!"
  | lessEq => "<="
  | less => "<"
  | greaterEq => ">="
  | greater => ">"
  | eqEq => "=="
  | bangEq => "!="
  | special op => op
  | functionWord => "function"
  | ifWord => "if"
  | elseWord => "else"
  | trueWord => "true"
  | falseWord => "false"
  | nullWord => "null"
  | float x => FloatFormat.source.write x
  | int n => toString n.toInt
  | str s => Text.quote s
  | ident name => name

end PipeLang.Token
