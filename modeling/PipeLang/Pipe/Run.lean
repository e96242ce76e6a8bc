import PipeLang.Pipe.Strategy
import PipeLang.Pipe.Unroll

/-!
# Running a pipe

A chain that begins with the placeholder is a function: a sequence of its steps.  Any other chain
is evaluated at once, in the way that the mode of the environment says, or else the operator.  The
target of a compound link is checked before the first step and written after the last.
-/

namespace PipeLang.Evaluator

variable (ev : Evaluator)

/-- The value of an unrolled chain. -/
def evalChain (env : Env) (isLazy : Bool) (es : List Expr) : Eval Value :=
  if env.mode.isLazy isLazy then ev.evalLazy env es else ev.evalEager env es

/-- The value of an unrolled chain that is no function, assigned to its target. -/
def evalUnrolled (env : Env) (isLazy : Bool) (unrolled : Unrolled) : Eval Value := do
  match unrolled.target? with
  | none => ev.evalChain env isLazy unrolled.exprs
  | some target =>
    let name ← target.targetName
    let v ← ev.evalChain env isLazy unrolled.exprs
    Eval.update fun s => s.define env name v
    pure v

/-- The value of a pipe between two sides. -/
def pipe (env : Env) (kind? : Option PipeKind) (isLazy : Bool) (left right : Expr) :
    Eval Value := do
  let unrolled ← ev.unroll env kind? left right
  match unrolled.exprs with
  | [] => ev.evalUnrolled env isLazy unrolled
  | head :: steps =>
    if head.isPlaceholder then Eval.makeSequence env steps else ev.evalUnrolled env isLazy unrolled

end PipeLang.Evaluator
