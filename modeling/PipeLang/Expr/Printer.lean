import PipeLang.Decimal.Format
import PipeLang.Expr.Basic
import PipeLang.Text.Quoted

/-!
# Expressions in print

`Expr.print` writes an expression in one line of source text.  It adds no parentheses around
operands, since the parser keeps those of the source as nodes; only a callee that is neither a
symbol nor an inline value nor in parentheses already is put into a pair.
-/

namespace PipeLang

/-- Whether a call of this symbol on two arguments is written between them. -/
def isOperator (op : String) : Bool :=
  (let chars := op.toList
   decide (2 ≤ chars.length) && chars.head? == some '%' && chars.getLast? == some '%') ||
    ["+", "-", "*", "/", "==", "!=", "<", "<=", ">", ">=", "&&", "||"].contains op

/-- The sign of a call on one argument that is written before it. -/
def sign? (op : String) : Option String :=
  if op = "neg" then some "-" else if op = "!" then some "!" else none

/-- A literal in source form. -/
def Literal.print : Literal → String
  | null => "null"
  | bool b => if b then "true" else "false"
  | int n => toString n.toInt
  | float x => FloatFormat.source.write x
  | str s => Text.quote s

/-- The arrow of an assignment. -/
def AssignScope.arrow : AssignScope → String
  | inner => "<-"
  | outer => "<<-"

/-- A call from the printed forms of its parts. -/
def printCall (func : Expr) (callee : String) (args : List String) : String :=
  let plain :=
    (match func with
      | .sym .. | .inline .. | .paren .. => callee
      | _ => "(" ++ callee ++ ")") ++ "(" ++ ", ".intercalate args ++ ")"
  match func, args with
  | .sym op _, [a, b] => if isOperator op then a ++ " " ++ op ++ " " ++ b else plain
  | .sym op _, [a] => match sign? op with
    | some sign => sign ++ a
    | none => plain
  | _, _ => plain

mutual

/-- The expression in source form. -/
def Expr.print : Expr → String
  | .lit literal _ => literal.print
  | .sym name _ => name
  | .call func args _ => printCall func func.print (Expr.printAll args)
  | .paren inner _ => "(" ++ inner.print ++ ")"
  | .block [] _ => "\x7b\x7d"
  | .block (first :: rest) _ =>
    "\x7b " ++ "; ".intercalate (first.print :: Expr.printAll rest) ++ " \x7d"
  | .list items _ => "[" ++ ", ".intercalate (Expr.printAll items) ++ "]"
  | .record fields _ => "\x7b " ++ ", ".intercalate (Expr.printFields fields) ++ " \x7d"
  | .field target name _ => target.print ++ "$" ++ name
  | .lambda params body _ => "function(" ++ ", ".intercalate params ++ ") " ++ body.print
  | .ifThen cond yes _ => "if (" ++ cond.print ++ ") " ++ yes.print
  | .ifElse cond yes no _ => "if (" ++ cond.print ++ ") " ++ yes.print ++ " else " ++ no.print
  | .assign target value scope _ => target.print ++ " " ++ scope.arrow ++ " " ++ value.print
  | .inline label _ _ => label

/-- Each of the expressions in source form. -/
def Expr.printAll : List Expr → List String
  | [] => []
  | e :: rest => e.print :: Expr.printAll rest

/-- Each of the named expressions, its name and a colon before it. -/
def Expr.printFields : List (String × Expr) → List String
  | [] => []
  | (name, e) :: rest => (name ++ ": " ++ e.print) :: Expr.printFields rest

end

attribute [simp] Expr.print Expr.printAll Expr.printFields

theorem Expr.printAll_eq_map (es : List Expr) : Expr.printAll es = es.map Expr.print := by
  induction es with
  | nil => simp
  | cons e rest ih => simp [ih]

theorem Expr.printFields_eq_map (fields : List (String × Expr)) :
    Expr.printFields fields = fields.map fun f => f.1 ++ ": " ++ f.2.print := by
  induction fields with
  | nil => simp
  | cons f rest ih => simp [ih]

end PipeLang
