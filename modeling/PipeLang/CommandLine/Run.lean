import PipeLang.CommandLine.Arguments
import PipeLang.CommandLine.ReadError
import PipeLang.Expr.Codec
import PipeLang.Json.Writer
import PipeLang.Parser.Program

/-!
# Running a command line

What the program writes and with which code it ends, as a function of its arguments and of the file
that they name.  Output that was written before an error stays.
-/

namespace PipeLang.CommandLine

/-- How a run ends. -/
structure Report where
  code : UInt8
  output : String
  /-- What goes to the error channel. -/
  errorLine? : Option String
deriving DecidableEq

namespace Report

/-- A run that went well. -/
def success (output : String) : Report := ⟨0, output, none⟩

/-- A run that failed after some output. -/
def failure (output message : String) : Report :=
  ⟨1, output, some ("Error: " ++ Text.quote message)⟩

/-- The report on an evaluation that writes all its output. -/
def ofEval (x : Eval Unit) (s : Store) : Report :=
  match x s with
  | (.ok _, s) => success s.printed
  | (.error e, s) => failure s.printed e.message
  | (.outOfFuel, s) => failure s.printed "evaluation nested beyond all bounds"

end Report

/-- The version of the program. -/
def versionLine : String := "dotpipe 0.1.0\n"

/-- The program as indented JSON. -/
def dump (stmts : List Expr) : String :=
  (Json.arr ((Expr.toJsonAll? stmts).getD [])).indented ++ "\n"

/-- Write an unrolled chain, a step a line, and its target after an arrow. -/
def printUnrolled (unrolled : Unrolled) (s : Store) : Store :=
  let s := unrolled.exprs.foldl (fun s e => s.print e.print) s
  match unrolled.target? with
  | some target => s.print ("-> " ++ target.print)
  | none => s

/-- Write a statement unrolled if it is a chain, else evaluate it. -/
def unrollStatement (env : Env) (stmt : Expr) : Eval Unit :=
  match stmt.pipeKind?, stmt with
  | some kind, .call _ [left, right] _ => do
    let unrolled ← Evaluator.interpreter.unroll env (some kind) left right
    Eval.update (printUnrolled unrolled)
  | _, _ => do
    let _ ← Evaluator.interpreter.eval env stmt

/-- Evaluate a program and write its value, unless that is `null`. -/
def runStatements (env : Env) (stmts : List Expr) : Eval Unit := do
  match ← evalProgram env stmts with
  | .null => pure ()
  | v => Eval.update fun s => s.print v.show

/-- The report on a program. -/
def runProgram (options : Options) (source : String) : Report :=
  match parseProgram source with
  | .error e => .failure "" e.message
  | .ok stmts =>
    if options.dumpTree then .success (dump stmts)
    else
      let (env, s) := globalEnv (options.mode?.getD .auto)
      if options.unroll then .ofEval (stmts.forM (unrollStatement env)) s
      else .ofEval (runStatements env stmts) s

/-- The report on some options, given what reading a file answers: its text, or the reason why it
cannot be read. -/
def run (options : Options) (read : String → Except ReadError String) : Report :=
  match options.code?, options.file? with
  | some source, _ => runProgram options source
  | none, some file =>
    match read file with
    | .ok source => runProgram options source
    | .error reason => .failure "" ("cannot read " ++ file ++ ": " ++ reason.message)
  | none, none => .failure "" "no program given: pass FILE or -e CODE"

/-- The report on arguments that ask for no run. -/
def Halt.report : Halt → Report
  | version => .success versionLine
  | usage e => ⟨2, "", some ("error: " ++ e.message)⟩

end PipeLang.CommandLine
