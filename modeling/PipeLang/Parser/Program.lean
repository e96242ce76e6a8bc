import PipeLang.Parser.Progress

/-!
# Programs

`parseProgram` reads a source text as a list of statements, `parseExpr` as a single expression, in
which several statements become one block.
-/

namespace PipeLang

namespace Parser

/-- The statements of a list of lexemes. -/
def program (ts : List Lexeme) : Except ParseError (List Expr) :=
  let outcome := statements (4 * ts.length + 4) none ts
  (outcome.toExcept (statements_ne_outOfFuel (Nat.le_refl _))).map Prod.fst

end Parser

/-- The statements of a source text, separated by line breaks and semicolons. -/
def parseProgram (source : String) : Except ParseError (List Expr) :=
  match lexCode? source with
  | .ok lexemes => Parser.program lexemes
  | .error e => .error (.lexical e)

/-- The expression that a list of statements stands for. -/
def Expr.ofStatements? : List Expr → Option Expr
  | [] => none
  | [e] => some e
  | first :: second :: rest =>
    let last := (second :: rest).getLast (by simp)
    some (.block (first :: second :: rest) (first.span.join last.span))

/-- The expression that a source text stands for; several statements become one block. -/
def parseExpr (source : String) : Except ParseError Expr := do
  match Expr.ofStatements? (← parseProgram source) with
  | some e => .ok e
  | none => .error .emptyInput

end PipeLang
