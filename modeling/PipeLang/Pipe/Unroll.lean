import PipeLang.Eval.Make
import PipeLang.Expr.Printer
import PipeLang.Pipe.Chain
import PipeLang.Pipe.Step

/-!
# Unrolled chains

Unrolling turns a chain of pipes into the list of expressions to be evaluated: its head, then the
step of each link.  A right side in parentheses is evaluated at once and its value put in its
place, except that of a dollar pipe.  That happens from right to left, so of several faults in a
chain the rightmost one is reported.

A chain has at most one compound link; the left side of it is the target of the assignment.
-/

namespace PipeLang

/-- A chain that is ready to be evaluated. -/
structure Unrolled where
  /-- The head, then one step for each link. -/
  exprs : List Expr
  /-- What the end of the chain is to be assigned to. -/
  target? : Option Expr

namespace Unrolled

/-- Whether two unrolled chains are the same, spans included. -/
def same (a b : Unrolled) : Bool :=
  Expr.sameAll a.exprs b.exprs &&
    match a.target?, b.target? with
    | some x, some y => x.same y
    | none, none => true
    | _, _ => false

end Unrolled

/-- The step of a link with this right side. -/
def PipeKind.step (right : Expr) : PipeKind → Expr
  | standard | compound => right.asPipeCall
  | tee => right.asTeeCall
  | dollar => right.asDollarCall

namespace Evaluator

variable (ev : Evaluator)

/-- A right side, a value in the place of one in parentheses. -/
def escape (env : Env) (right : Expr) : Eval Expr :=
  match right with
  | .paren .. => do Eval.splice (← ev.eval env right) right.span
  | _ => pure right

/-- The right side of a link as it goes into the step. -/
def operand (env : Env) (link : Link) : Eval Expr :=
  if link.kind = .dollar then pure link.right else ev.escape env link.right

/-- The steps of some links and the target of the compound one among them. -/
def unrollLinks (env : Env) : List Link → Eval (List Expr × Option Expr)
  | [] => pure ([], none)
  | link :: rest => do
    let (steps, target?) ← unrollLinks env rest
    let right ← ev.operand env link
    let steps := link.kind.step right :: steps
    match link.kind, target? with
    | .compound, none => pure (steps, some link.left)
    | .compound, some _ => .fail (.chain .secondCompound)
    | _, _ => pure (steps, target?)

/-- The chain that ends with a pipe between these sides.  A call that is no pipe has none. -/
def unroll (env : Env) (kind? : Option PipeKind) (left right : Expr) : Eval Unrolled := do
  match kind? with
  | some kind =>
    let chain := Chain.ofPipe kind left right
    let (steps, target?) ← ev.unrollLinks env chain.links
    match chain.head? with
    | some head => pure ⟨head :: steps, target?⟩
    | none => .fail (.chain .missingOperand)
  | none =>
    let _ ← ev.escape env right
    .fail (.internal .notPipe)

end Evaluator

/-- The name that a target assigns to: any bare name but the placeholder. -/
def Expr.targetName : Expr → Except EvalError String
  | .sym name s =>
    if name = placeholder then .error (.assignTarget (sym name s).print) else .ok name
  | e => .error (.assignTarget e.print)

end PipeLang
