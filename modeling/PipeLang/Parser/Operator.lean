import PipeLang.Expr.Basic
import PipeLang.Token.Basic

/-!
# Binding powers

Infix operators bind with a power, from assignment, the loosest, to the operators between percent
signs, the tightest; signs bind tighter still.  An operator takes as its left operand what binds
at least as tightly as itself.  On its right it asks for one more, which makes it associate to the
left; the arrows ask for no more than their own power and associate to the right.
-/

namespace PipeLang

namespace Power

/-- Assignment. -/
def assign : Nat := 1

/-- `||`. -/
def disjunction : Nat := 2

/-- `&&`. -/
def conjunction : Nat := 3

/-- Comparisons. -/
def comparison : Nat := 4

/-- `+` and `-`. -/
def sum : Nat := 5

/-- `*` and `/`. -/
def product : Nat := 6

/-- Operators between percent signs, the pipes among them. -/
def special : Nat := 7

/-- Signs before an operand. -/
def sign : Nat := 8

end Power

/-- What an infix operator makes of its operands. -/
inductive InfixForm where
  /-- A call of the operator on both. -/
  | call (op : String)
  /-- An assignment of the right one to the left one. -/
  | assign (scope : AssignScope)
deriving DecidableEq

/-- An infix operator in the grammar. -/
structure InfixOp where
  /-- How tightly it binds its left operand. -/
  left : Nat
  /-- How tightly its right operand must bind. -/
  right : Nat
  form : InfixForm
deriving DecidableEq

namespace InfixOp

/-- An operator that associates to the left and stands for a call. -/
def leftCall (power : Nat) (op : String) : InfixOp := ⟨power, power + 1, .call op⟩

/-- The infix operator that a token is, if it is one. -/
def ofToken? : Token → Option InfixOp
  | .leftArrow => some ⟨Power.assign, Power.assign, .assign .inner⟩
  | .superArrow => some ⟨Power.assign, Power.assign, .assign .outer⟩
  | .orOr => some (leftCall Power.disjunction "||")
  | .andAnd => some (leftCall Power.conjunction "&&")
  | .eqEq => some (leftCall Power.comparison "==")
  | .bangEq => some (leftCall Power.comparison "!=")
  | .less => some (leftCall Power.comparison "<")
  | .lessEq => some (leftCall Power.comparison "<=")
  | .greater => some (leftCall Power.comparison ">")
  | .greaterEq => some (leftCall Power.comparison ">=")
  | .plus => some (leftCall Power.sum "+")
  | .minus => some (leftCall Power.sum "-")
  | .star => some (leftCall Power.product "*")
  | .slash => some (leftCall Power.product "/")
  | .special op => some (leftCall Power.special op)
  | _ => none

/-- The expression of an operator, whose symbol stands at `s`, on two operands. -/
def apply (op : InfixOp) (s : Span) (lhs rhs : Expr) : Expr :=
  match op.form with
  | .call name => .call (.sym name s) [lhs, rhs] (lhs.span.join rhs.span)
  | .assign scope => .assign lhs rhs scope (lhs.span.join rhs.span)

end InfixOp

end PipeLang
