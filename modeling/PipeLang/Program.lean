import PipeLang.Eval.Expr

/-!
# Running programs

A program runs in the global frame, which lies within the root frame, which binds the builtins.
`Env.describe` and the state of a binding show environments without evaluating anything.
-/

namespace PipeLang

/-! ### Where programs start -/

/-- What the root frame binds. -/
def rootBindings : Fields Binding :=
  Fields.ofList (Native.all.map (fun n => (n.name, .value (.native n))) ++
    Special.all.map fun s => (s.name, .value (.special s)))

/-- A single frame without bindings. -/
def bareEnv (mode : PipeMode) : Env × Store :=
  (⟨Store.empty.nextFrame, [], mode⟩, Store.empty.addFrame [])

/-- A global frame without bindings, within the root frame. -/
def globalEnv (mode : PipeMode) : Env × Store :=
  let root : Env := ⟨Store.empty.nextFrame, [], mode⟩
  (Store.empty.addFrame rootBindings).addChild root []

/-- Evaluate the statements of a program. -/
def evalProgram (env : Env) (stmts : List Expr) : Eval Value :=
  Evaluator.interpreter.evalStatements env stmts

/-! ### Showing environments -/

/-- How a binding stands; a deferred value by how far it is evaluated. -/
def Binding.state (s : Store) : Binding → String
  | .value _ => "value"
  | .deferred id =>
    match s.thunk? id with
    | some (.forced _) => "Thunk(forced)"
    | some .evaluating => "Thunk(evaluating)"
    | _ => "Thunk(pending)"

/-- How many frames lie around an environment, and the names that it binds itself. -/
def Env.describe (s : Store) (env : Env) : String :=
  "Env(depth=" ++ toString env.depth ++ ", names=[" ++
    ", ".intercalate ((s.ownNames env).map Text.quote) ++ "])"

/-- The name of the mode. -/
def PipeMode.name : PipeMode → String
  | auto => "auto"
  | eager => "eager"
  | lazy => "lazy"

/-- The mode of a name. -/
def PipeMode.ofName? (name : String) : Option PipeMode :=
  [auto, eager, lazy].find? fun mode => mode.name == name

end PipeLang
