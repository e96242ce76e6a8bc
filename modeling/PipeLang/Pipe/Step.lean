import PipeLang.Expr.Basic

/-!
# Right sides of pipes

How the right side of a pipe becomes the expression that is evaluated with the placeholder bound
to the value that arrives.  A right side that is no call yet becomes one, and a call receives the
placeholder as its first argument unless one of its arguments is the placeholder already.  Blocks
are treated like calls, their statements like arguments.

Spans are those of the right side throughout.
-/

namespace PipeLang

namespace Expr

/-- The expressions with a placeholder in front, unless one of them is the placeholder. -/
def withPlaceholder (s : Span) (es : List Expr) : List Expr :=
  if es.any isPlaceholder then es else sym placeholder s :: es

/-- The call or block with the placeholder among its arguments or statements; anything else as it
is. -/
def addPlaceholder : Expr → Expr
  | call func args s => call func (withPlaceholder s args) s
  | block stmts s => block (withPlaceholder s stmts) s
  | e => e

/-- The right side as a call on the placeholder. -/
def asPipeCall : Expr → Expr
  | call func args s => (call func args s).addPlaceholder
  | block stmts s => (block stmts s).addPlaceholder
  | e => (call e [] e.span).addPlaceholder

/-- The right side as a call on the placeholder, followed by the placeholder. -/
def asTeeCall (e : Expr) : Expr := block [e.asPipeCall, sym placeholder e.span] e.span

/-- The name under which the fields of a record are brought into scope, wherever it is used. -/
def scopeName : String := "base::with"

/-- The right side evaluated among the fields of the placeholder. -/
def asDollarCall (e : Expr) : Expr :=
  call (sym scopeName e.span) [sym placeholder e.span, e] e.span

end Expr

end PipeLang
