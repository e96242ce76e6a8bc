import PipeLang.Eval.Basic
import PipeLang.Value.Printer

/-!
# Making functions and inline nodes

A closure and a functional sequence get an identity of their own when they are made, and a value
that is spliced into an expression a reference of its own.
-/

namespace PipeLang.Eval

/-- An identity that no function has yet. -/
def freshFunction : Eval FunctionId := make fun s => (s.nextFunction, s.addFunction)

/-- A closure. -/
def makeClosure (params : List String) (body : Expr) (env : Env) : Eval Value := do
  let id ← freshFunction
  pure (.closure ⟨id, params, body, env⟩)

/-- The functional sequence of some expressions, each a function of the placeholder. -/
def makeSequence (env : Env) (body : List Expr) : Eval Value := do
  let steps ← body.mapM fun e => makeClosure [placeholder] e env
  let id ← freshFunction
  pure (.sequence id steps)

/-- A value as an expression, its text as the label. -/
def splice (v : Value) (span : Span) : Eval Expr :=
  make fun s => (.inline v.show s.nextInline span, s.addInline v)

end PipeLang.Eval
