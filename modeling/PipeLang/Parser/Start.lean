import PipeLang.Expr.Basic
import PipeLang.Token.Basic

/-!
# Starts of operands

What the first token of an operand says about it.  The other tokens start no operand.
-/

namespace PipeLang

/-- What an operand can start with. -/
inductive Start where
  | literal (literal : Literal)
  | symbol (name : String)
  /-- A sign, by the function that it stands for. -/
  | sign (op : String)
  | paren
  | bracket
  | brace
  | function
  | condition
deriving DecidableEq

/-- What a token starts, if it starts an operand. -/
def Start.ofToken? : Token → Option Start
  | .int n => some (literal (.int n))
  | .float x => some (literal (.float x))
  | .str s => some (literal (.str s))
  | .trueWord => some (literal (.bool true))
  | .falseWord => some (literal (.bool false))
  | .nullWord => some (literal .null)
  | .ident name => some (symbol name)
  | .dot => some (symbol placeholder)
  | .minus => some (sign "neg")
  | .bang => some (sign "!")
  | .leftParen => some paren
  | .leftBracket => some bracket
  | .leftBrace => some brace
  | .functionWord | .backslash => some function
  | .ifWord => some condition
  | .newline | .comment | .comma | .semicolon | .colon | .dollar
  | .rightParen | .rightBracket | .rightBrace
  | .superArrow | .leftArrow | .orOr | .andAnd
  | .lessEq | .less | .greaterEq | .greater | .eqEq | .bangEq
  | .plus | .star | .slash | .special _ | .elseWord => none

end PipeLang
