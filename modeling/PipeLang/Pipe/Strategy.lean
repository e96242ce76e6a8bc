import PipeLang.Eval.Basic

/-!
# Evaluating a chain

Two ways to evaluate the steps of a chain, each with the placeholder bound to the value of the step
before.  `evalEager` evaluates every step in order and binds the placeholder in the environment
itself; what it was bound to there before is put back at the end, however the evaluation ends.
`evalLazy` makes an environment for each step, in which the placeholder is a deferred value, and
evaluates the last step alone: a step whose value nobody needs is never evaluated.
-/

namespace PipeLang

/-- An environment within this one in which the placeholder is deferred to an expression. -/
def Store.addStage (s : Store) (env : Env) (e : Expr) : Env × Store :=
  let (inner, s) := s.addChild env []
  (inner, s.bindDeferred inner.own placeholder e env)

namespace Evaluator

variable (ev : Evaluator)

/-- The value of the last expression, the placeholder rebound after each of the others. -/
def evalSteps (env : Env) : List Expr → Eval Value
  | [] => .fail (.internal .emptyChain)
  | [last] => ev.eval env last
  | e :: next :: rest => do
    let v ← ev.eval env e
    Eval.update fun s => s.define env placeholder v
    evalSteps env (next :: rest)

/-- The value of a chain, step by step. -/
def evalEager (env : Env) (es : List Expr) : Eval Value := do
  let saved ← Eval.read fun s => s.ownBinding? env placeholder
  (ev.evalSteps env es).ensuring fun s => s.rebind env.own placeholder saved

/-- The value of a chain, on demand. -/
def evalLazy (env : Env) : List Expr → Eval Value
  | [] => .fail (.internal .emptyChain)
  | [last] => ev.eval env last
  | e :: next :: rest => do
    let inner ← Eval.make fun s => s.addStage env e
    evalLazy inner (next :: rest)

end Evaluator

end PipeLang
