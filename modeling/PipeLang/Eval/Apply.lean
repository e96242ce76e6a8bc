import PipeLang.Builtin.Pure
import PipeLang.Pipe.Run

/-!
# Applying functions

A function is applied in a call, to expressions, or to values.  In a call a closure defers its
arguments, a builtin with evaluated arguments has them evaluated from the left, and a special
builtin takes them as they stand.  Applied to values, a special builtin gets them spliced into
inline nodes.
-/

namespace PipeLang.Evaluator

variable (ev : Evaluator)

/-! ### Builtins -/

/-- The items that a predicate holds of, in order. -/
def filterItems (env : Env) (predicate : Value) : List Value → Eval (List Value)
  | [] => pure []
  | v :: rest => do
    let keep ← (← ev.apply env predicate [v]).asBool
    let kept ← filterItems env predicate rest
    pure (if keep then v :: kept else kept)

/-- The functions that a value stands for, in order. -/
def stepsOf : Value → Except EvalError (List Value)
  | .sequence _ steps => .ok steps
  | v => v.asList

/-- The answer of a builtin to values. -/
def applyNative (env : Env) (n : Native) (args : List Value) : Eval Value :=
  match n, args with
  | .unary op, [v] => Eval.ofExcept (op.answer v)
  | .binary op, [a, b] => Eval.ofExcept (op.answer a b)
  | .paste, _ :: _ => pure (.str (" ".intercalate (args.map Value.show)))
  | .print, [v] => do
    Eval.update fun s => s.print v.show
    pure v
  | .map, [items, f] => do
    let answers ← (← items.asList).mapM fun v => ev.apply env f [v]
    pure (.list answers)
  | .filter, [items, predicate] => do
    let kept ← ev.filterItems env predicate (← items.asList)
    pure (.list kept)
  | .freduce, [v, fs] => do ev.applyAll env (← stepsOf fs) v
  | _, _ => .fail (.arity n.name n.arity args.length)

/-- The answer of a builtin to expressions. -/
def applySpecial (env : Env) (special : Special) (args : List Expr) : Eval Value :=
  match args with
  | [left, right] =>
    match special with
    | .and => do
      if ← (← ev.eval env left).asBool then pure (.bool (← (← ev.eval env right).asBool))
      else pure (.bool false)
    | .or => do
      if ← (← ev.eval env left).asBool then pure (.bool true)
      else pure (.bool (← (← ev.eval env right).asBool))
    | .within => do
      let fields ← (← ev.eval env left).asRecord
      let inner ← Eval.make fun s => s.addChild env (fields.map fun (k, v) => (k, .value v))
      ev.eval inner right
    | .pipe op => ev.pipe env (some op.kind) op.isLazy left right
  | _ => .fail (.arity special.name (.exactly 2) args.length)

/-! ### Functions in general -/

/-- The number of arguments must be the one that the function takes. -/
def checkArity (name : String) (expected : Arity) (got : Nat) : Eval Unit :=
  if expected.accepts got then pure () else .fail (.arity name expected got)

/-- Defer the arguments of a closure in its frame. -/
def deferArguments (frame : FrameId) (env : Env) (params : List String) (args : List Expr)
    (s : Store) : Store :=
  (params.zip args).foldl (fun s (name, e) => s.bindDeferred frame name e env) s

/-- The answer of a function to expressions, as in a call of the given callee. -/
def applyCall (env : Env) (f : Value) (args : List Expr) (callee : Expr) : Eval Value :=
  match f with
  | .special special => ev.applySpecial env special args
  | .closure c => do
    checkArity callee.print (.exactly c.params.length) args.length
    let inner ← Eval.make fun s => s.addChild c.env []
    Eval.update (deferArguments inner.own env c.params args)
    ev.eval inner c.body
  | .native _ | .sequence .. => do
    let vs ← ev.evalAll env args
    ev.apply env f vs
  | _ => .fail (.notFunction callee.print)

/-- The answer of a function to values. -/
def applyValue (env : Env) (f : Value) (args : List Value) : Eval Value :=
  match f with
  | .native n => do
    checkArity n.name n.arity args.length
    ev.applyNative env n args
  | .closure c => do
    checkArity "function" (.exactly c.params.length) args.length
    let inner ← Eval.make fun s =>
      s.addChild c.env (Fields.ofList (c.params.zip (args.map .value)))
    ev.eval inner c.body
  | .special special => do
    let exprs ← args.mapM fun v => Eval.splice v .nowhere
    ev.applySpecial env special exprs
  | .sequence _ steps => do
    checkArity "sequence" (.exactly 1) args.length
    ev.applyAll env steps (args.headD .null)
  | _ => .fail (.notFunction f.show)

end PipeLang.Evaluator
