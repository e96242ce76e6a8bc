import PipeLang.Eval.Basic

/-!
# Deferred values

A deferred value is evaluated when it is needed for the first time, and its value is kept.  While
it is being evaluated it is marked, so that a value that needs itself is an error.  Deferred
values may need one another, but only `depthLimit` of them within one another.

An evaluation that fails leaves the deferred value as it was.
-/

namespace PipeLang

/-- How many deferred values may be evaluated within one another. -/
def depthLimit : Nat := 128

namespace Store

/-- Begin to evaluate a deferred value. -/
def enter (s : Store) (id : ThunkId) : Store :=
  { s with depth := s.depth + 1 }.setThunk id .evaluating

/-- End the evaluation of a deferred value. -/
def leave (s : Store) (id : ThunkId) (t : Thunk) : Store :=
  { s with depth := s.depth - 1 }.setThunk id t

end Store

namespace Evaluator

variable (ev : Evaluator)

/-- The value of a deferred value. -/
def force (id : ThunkId) : Eval Value := fun s =>
  match s.thunk? id with
  | some (.forced v) => (.ok v, s)
  | some (.pending e env) =>
    if depthLimit ≤ s.depth then (.error (.tooDeep depthLimit), s)
    else
      match ev.eval env e (s.enter id) with
      | (.ok v, s) => (.ok v, s.leave id (.forced v))
      | (failed, s) => (failed, s.leave id (.pending e env))
  | some .evaluating =>
    if depthLimit ≤ s.depth then (.error (.tooDeep depthLimit), s) else (.error .recursive, s)
  | none => (.error (.internal .dangling), s)

/-- The value of a binding. -/
def forceBinding : Binding → Eval Value
  | .value v => pure v
  | .deferred id => ev.force id

/-- The value of a name. -/
def lookup (env : Env) (name : String) : Eval Value := do
  match ← Eval.read fun s => s.resolve env name with
  | .ok b => ev.forceBinding b
  | .error missing => .fail (.unbound missing)

/-- The value of a name in the root frame. -/
def lookupRoot (env : Env) (name : String) : Eval Value := do
  match ← Eval.read fun s => s.binding? env.rootFrame name with
  | some b => ev.forceBinding b
  | none => .fail (.unbound name)

end Evaluator

end PipeLang
