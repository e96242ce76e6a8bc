import PipeLang.Eval.Apply
import PipeLang.Eval.Force

/-!
# Evaluating expressions

`Evaluator.step` evaluates an expression, or applies a function, by means of an evaluator for what
is nested in it.  `Evaluator.level n` does so to a nesting of `n`; beyond that it gives up.
-/

namespace PipeLang.Evaluator

variable (ev : Evaluator)

/-- The fields of a record, evaluated in written order. -/
def evalFields (env : Env) (fields : List (String × Expr)) : Eval (Fields Value) :=
  fields.foldlM (fun known (name, e) => do pure (known.insert name (← ev.eval env e))) []

/-- The value of an expression. -/
def evalExpr (env : Env) : Expr → Eval Value
  | .lit literal _ => pure literal.value
  | .sym name _ => ev.lookup env name
  | .inline label ref _ => do
    match ← Eval.read fun s => s.inline? ref with
    | some v => pure v
    | none => .fail (.internal (.foreignInline label))
  | .paren inner _ => ev.eval env inner
  | .block stmts _ => ev.evalStatements env stmts
  | .list items _ => do pure (.list (← ev.evalAll env items))
  | .record fields _ => do pure (.record (← ev.evalFields env fields))
  | .field target name _ => do
    let fields ← (← ev.eval env target).asRecord
    pure (fieldOf fields name)
  | .lambda params body _ => Eval.makeClosure params body env
  | .ifThen cond yes _ => do
    if ← (← ev.eval env cond).asBool then ev.eval env yes else pure .null
  | .ifElse cond yes no _ => do
    if ← (← ev.eval env cond).asBool then ev.eval env yes else ev.eval env no
  | .assign (.sym name _) value scope _ => do
    let v ← ev.eval env value
    match scope with
    | .inner => Eval.update fun s => s.define env name v
    | .outer => Eval.update fun s => s.assignOuter env name v
    pure v
  | .assign target _ _ _ => .fail (.assignTarget target.print)
  | .call func args _ => do
    let f ← ev.eval env func
    ev.applyCall env f args func

/-- One level of evaluation. -/
def step : Evaluator where
  eval env e := ev.evalExpr env e
  apply env f args := ev.applyValue env f args

/-- Evaluation to a nesting of `n`. -/
def level : Nat → Evaluator
  | 0 => idle
  | n + 1 =>
    ⟨fun env e => (level n).evalExpr env e, fun env f args => (level n).applyValue env f args⟩

theorem level_succ (n : Nat) : level (n + 1) = (level n).step := rfl

/-- How deeply the interpreter nests evaluations. -/
def nestingLimit : Nat := 1000000

/-- The evaluator of the interpreter. -/
def interpreter : Evaluator := level nestingLimit

end PipeLang.Evaluator
