import PipeLang.Parser.Basic
import PipeLang.Parser.Operator
import PipeLang.Parser.Start

/-!
# The grammar

Expressions are read by precedence climbing: an operand, then as many infix operators as bind at
least as tightly as asked for, each with its right operand.  An operand is an atom followed by
arguments and fields, which must start at the very next lexeme that is left: on the line where what
they apply to ends, unless line breaks have been passed over at its end.

The functions call one another with one unit of fuel less.  Four units for every lexeme and four
more suffice, as every one of them but `expr`, `operand` and the lists consumes a lexeme before
it asks for an expression.

## Line breaks

Line breaks end statements.  They carry no meaning between parentheses, between brackets and in
records (`free`), after an infix operator, after the parameters of a function and around the
branches of a conditional.
-/

namespace PipeLang.Parser

/-! ### Parameters -/

mutual

/-- Parameter names up to the closing parenthesis. -/
def paramNames : List Lexeme → Parsed (List String × List Lexeme)
  | [] => .error .endOfInput
  | t :: rest =>
    match t.token with
    | .newline => paramNames rest
    | .rightParen => .ok ([], rest)
    | .ident name => do
      let (names, rest) ← afterParam rest
      .ok (name :: names, rest)
    | .dot => do
      let (names, rest) ← afterParam rest
      .ok (placeholder :: names, rest)
    | _ => .error (.unexpected t)

/-- The parameter names after one of them. -/
def afterParam : List Lexeme → Parsed (List String × List Lexeme)
  | [] => .error .endOfInput
  | t :: rest =>
    match t.token with
    | .newline => afterParam rest
    | .rightParen => .ok ([], rest)
    | .comma => paramNames rest
    | _ => .error (.unexpected t)

end

/-- Whether what follows an opening brace is a record: a name and a colon, after any line
breaks. -/
def startsRecord (ts : List Lexeme) : Bool :=
  match skipNewlines ts with
  | t :: u :: _ =>
    match t.token, u.token with
    | .ident _, .colon => true
    | _, _ => false
  | _ => false

/-- Whether a statement may end before this lexeme. -/
def endsStatement (close : Option Token) (t : Lexeme) : Bool :=
  t.token == .newline || t.token == .semicolon || some t.token == close

/-! ### Expressions -/

mutual

/-- An expression whose operators all bind at least as tightly as `least`. -/
def expr : Nat → Bool → Nat → List Lexeme → Parsed (Expr × List Lexeme)
  | 0, _, _, _ => .outOfFuel
  | fuel + 1, free, least, ts => do
    let (lhs, ts) ← operand fuel free ts
    infixTail fuel free least lhs ts

/-- The expression that starts with the operand `lhs`. -/
def infixTail : Nat → Bool → Nat → Expr → List Lexeme → Parsed (Expr × List Lexeme)
  | 0, _, _, _, _ => .outOfFuel
  | fuel + 1, free, least, lhs, ts =>
    match ahead free ts with
    | [] => .ok (lhs, [])
    | t :: rest =>
      match InfixOp.ofToken? t.token with
      | none => .ok (lhs, t :: rest)
      | some op =>
        if op.left < least then .ok (lhs, t :: rest)
        else do
          let (rhs, ts) ← expr fuel free op.right (skipNewlines rest)
          infixTail fuel free least (op.apply t.span lhs rhs) ts

/-- An atom with the arguments and fields after it. -/
def operand : Nat → Bool → List Lexeme → Parsed (Expr × List Lexeme)
  | 0, _, _ => .outOfFuel
  | fuel + 1, free, ts => do
    let (lhs, ts) ← atom fuel free ts
    postfixTail fuel free lhs ts

/-- The operand that starts with `lhs`: arguments and fields that start at the next lexeme. -/
def postfixTail : Nat → Bool → Expr → List Lexeme → Parsed (Expr × List Lexeme)
  | 0, _, _, _ => .outOfFuel
  | _ + 1, _, lhs, [] => .ok (lhs, [])
  | fuel + 1, free, lhs, t :: rest =>
    match t.token with
    | .leftParen => do
      let (args, close, ts) ← exprs fuel .rightParen rest
      postfixTail fuel free (.call lhs args (lhs.span.join close)) ts
    | .dollar => do
      let (name, s, ts) ← expectName free "field name after $" rest
      postfixTail fuel free (.field lhs name (lhs.span.join s)) ts
    | _ => .ok (lhs, t :: rest)

/-- An expression without operators, arguments and fields around it. -/
def atom : Nat → Bool → List Lexeme → Parsed (Expr × List Lexeme)
  | 0, _, _ => .outOfFuel
  | fuel + 1, free, ts => do
    let (t, rest) ← next free ts
    match Start.ofToken? t.token with
    | none => .error (.unexpected t)
    | some (.literal literal) => .ok (.lit literal t.span, rest)
    | some (.symbol name) => .ok (.sym name t.span, rest)
    | some (.sign op) => signed fuel free op t.span rest
    | some .paren => do
      let (inner, ts) ← expr fuel true 0 rest
      let (close, ts) ← expect true .rightParen ")" ts
      .ok (.paren inner (t.span.join close.span), ts)
    | some .bracket => do
      let (items, close, ts) ← exprs fuel .rightBracket rest
      .ok (.list items (t.span.join close), ts)
    | some .brace =>
      if startsRecord rest then do
        let (fields, close, ts) ← recordFields fuel rest
        .ok (.record fields (t.span.join close), ts)
      else do
        let (stmts, ts) ← statements fuel (some .rightBrace) rest
        let (close, ts) ← expect free .rightBrace "\x7d" ts
        .ok (.block stmts (t.span.join close.span), ts)
    | some .function => lambda fuel free t.span rest
    | some .condition => conditional fuel free t.span rest

/-- The operand of a sign that stands at `s`. -/
def signed : Nat → Bool → String → Span → List Lexeme → Parsed (Expr × List Lexeme)
  | 0, _, _, _, _ => .outOfFuel
  | fuel + 1, free, op, s, ts => do
    let (operand, ts) ← expr fuel free Power.sign ts
    .ok (.call (.sym op s) [operand] (s.join operand.span), ts)

/-- A function after the word, or the backslash, at `s`. -/
def lambda : Nat → Bool → Span → List Lexeme → Parsed (Expr × List Lexeme)
  | 0, _, _, _ => .outOfFuel
  | fuel + 1, free, s, ts => do
    let (_, ts) ← expect free .leftParen "(" ts
    let (params, ts) ← paramNames ts
    let (body, ts) ← expr fuel free Power.assign (skipNewlines ts)
    .ok (.lambda params body (s.join body.span), ts)

/-- A conditional after the word at `s`.  Its alternative may start on a later line; if there is
none, the line breaks before that place are left. -/
def conditional : Nat → Bool → Span → List Lexeme → Parsed (Expr × List Lexeme)
  | 0, _, _, _ => .outOfFuel
  | fuel + 1, free, s, ts => do
    let (_, ts) ← expect free .leftParen "(" ts
    let (cond, ts) ← expr fuel true 0 ts
    let (_, ts) ← expect true .rightParen ")" ts
    let (yes, ts) ← expr fuel free Power.assign (skipNewlines ts)
    match skipNewlines ts with
    | t :: rest =>
      if t.token = .elseWord then do
        let (no, ts) ← expr fuel free Power.assign (skipNewlines rest)
        .ok (.ifElse cond yes no (s.join no.span), ts)
      else .ok (.ifThen cond yes (s.join yes.span), ts)
    | [] => .ok (.ifThen cond yes (s.join yes.span), ts)

/-- Expressions between commas up to the closing token, with its span. -/
def exprs : Nat → Token → List Lexeme → Parsed (List Expr × Span × List Lexeme)
  | 0, _, _ => .outOfFuel
  | fuel + 1, close, ts =>
    match skipNewlines ts with
    | [] => .error .endOfInput
    | t :: rest =>
      if t.token = close then .ok ([], t.span, rest)
      else do
        let (first, ts) ← expr fuel true 0 (t :: rest)
        let (sep, ts) ← next true ts
        if sep.token = close then .ok ([first], sep.span, ts)
        else if sep.token = .comma then do
          let (others, stop, ts) ← exprs fuel close ts
          .ok (first :: others, stop, ts)
        else .error (.unexpected sep)

/-- Fields between commas up to the closing brace, with its span. -/
def recordFields : Nat → List Lexeme → Parsed (List (String × Expr) × Span × List Lexeme)
  | 0, _ => .outOfFuel
  | fuel + 1, ts =>
    match skipNewlines ts with
    | [] => .error .endOfInput
    | t :: rest =>
      if t.token = .rightBrace then .ok ([], t.span, rest)
      else do
        let (name, _, ts) ← expectName true "field name" (t :: rest)
        let (_, ts) ← expect true .colon ":" ts
        let (first, ts) ← expr fuel true 0 ts
        let (sep, ts) ← next true ts
        if sep.token = .rightBrace then .ok ([(name, first)], sep.span, ts)
        else if sep.token = .comma then do
          let (others, stop, ts) ← recordFields fuel ts
          .ok ((name, first) :: others, stop, ts)
        else .error (.unexpected sep)

/-- Statements up to the closing token, or to the end of the program if there is none; the
closing token is left. -/
def statements : Nat → Option Token → List Lexeme → Parsed (List Expr × List Lexeme)
  | 0, _, _ => .outOfFuel
  | fuel + 1, close, ts =>
    match skipSeparators ts with
    | [] => .ok ([], [])
    | t :: rest =>
      if some t.token = close then .ok ([], t :: rest)
      else do
        let (first, ts) ← expr fuel false 0 (t :: rest)
        match ts with
        | [] => .ok ([first], [])
        | u :: _ =>
          if endsStatement close u then do
            let (others, ts) ← statements fuel close ts
            .ok (first :: others, ts)
          else .error (.unexpected u)

end

end PipeLang.Parser
