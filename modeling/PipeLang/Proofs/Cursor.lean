import PipeLang.Parser.Program

/-!
# The parser at a cursor

The parser is a function of the lexemes that are left.  Here it is told once more with all lexemes
at hand and a cursor among them, and with a record of what it does: which of its parts begin, and
where the cursor goes (`Move`).  `Walk.program` answers what `Parser.program` does; that is proved
where the moves are looked at.

A part looks at lexemes by their positions, so nothing in these definitions keeps the cursor within
the list, and nothing keeps it from going back.

## Going back

There is one place where the cursor goes back.  After the branch of a conditional line breaks are
passed over in search of an alternative, and if there is none, the cursor is put back to where the
branch ended (`Walk.findElse`).
-/

namespace PipeLang.Parser

/-! ### Moves -/

/-- The parts of the parser, its loops among them. -/
inductive Part where
  | expr
  | infixTail
  | operand
  | postfixTail
  | atom
  | signed
  | lambda
  | params
  | conditional
  | exprs
  | recordFields
  | statements
deriving DecidableEq

/-- What the parser does with the cursor at the lexeme of a given position. -/
inductive Move where
  /-- A part, or one more round of it, begins. -/
  | enter (part : Part) (at_ : Nat)
  /-- The cursor passes over the lexeme. -/
  | pass (at_ : Nat)
  /-- The same at the beginning of an atom: over its first lexeme, or a line break before that. -/
  | take (at_ : Nat)
  /-- A conditional has no alternative here, and the cursor is put back. -/
  | noElse (at_ back : Nat)
deriving DecidableEq

namespace Move

/-- Where the cursor is before the move. -/
def start : Move → Nat
  | enter _ i | pass i | take i | noElse i _ => i

/-- Where it is after the move. -/
def stop : Move → Nat
  | enter _ i => i
  | pass i | take i => i + 1
  | noElse _ back => back

/-- The position that the move passes over. -/
def passed? : Move → Option Nat
  | pass i | take i => some i
  | enter .. | noElse .. => none

/-- The position that an atom takes by the move. -/
def taken? : Move → Option Nat
  | take i => some i
  | enter .. | pass _ | noElse .. => none

/-- Whether an atom is entered. -/
def entersAtom : Move → Bool
  | enter part _ => part == .atom
  | pass _ | take _ | noElse .. => false

end Move

/-- A place among the lexemes, and all moves so far. -/
structure Cursor where
  /-- How many lexemes are before the place. -/
  index : Nat
  moves : List Move

/-- So many moves of one kind, each a position further. -/
def steps (move : Nat → Move) (i n : Nat) : List Move := (List.range' i n).map move

namespace Cursor

/-- At the first lexeme. -/
def start : Cursor := ⟨0, []⟩

/-- The lexemes that are left. -/
def left (tokens : List Lexeme) (c : Cursor) : List Lexeme := tokens.drop c.index

/-- Record what does not change the place. -/
def enter (part : Part) (c : Cursor) : Cursor := ⟨c.index, c.moves ++ [.enter part c.index]⟩

/-- Pass over so many lexemes. -/
def past (move : Nat → Move) (n : Nat) (c : Cursor) : Cursor :=
  ⟨c.index + n, c.moves ++ steps move c.index n⟩

/-- Pass over all lexemes of a kind that come next. -/
def skip (tokens : List Lexeme) (move : Nat → Move) (kind : Lexeme → Bool) (c : Cursor) : Cursor :=
  c.past move ((c.left tokens).takeWhile kind).length

/-- Go to what the grammar sees, over line breaks where they carry no meaning. -/
def ahead (tokens : List Lexeme) (move : Nat → Move) (free : Bool) (c : Cursor) : Cursor :=
  if free then c.skip tokens move fun t => t.token == .newline else c

/-- Go back to another place. -/
def backTo (c origin : Cursor) : Cursor :=
  ⟨origin.index, c.moves ++ [.noElse c.index origin.index]⟩

end Cursor

/-! ### Computations at a cursor -/

/-- A computation on lexemes with a cursor, which stays where it is when the computation fails. -/
def Walk (α : Type) : Type := List Lexeme → Cursor → Parsed α × Cursor

namespace Walk

variable {α β : Type}

/-- A result without a move. -/
@[always_inline, inline]
protected def pure (a : α) : Walk α := fun _ c => (.ok a, c)

/-- Go on with a result and the cursor that came with it. -/
@[always_inline, inline]
protected def bind (x : Walk α) (f : α → Walk β) : Walk β := fun tokens c =>
  match x tokens c with
  | (.ok a, c) => f a tokens c
  | (.error e, c) => (.error e, c)
  | (.outOfFuel, c) => (.outOfFuel, c)

@[always_inline]
instance : Monad Walk where
  pure := Walk.pure
  bind := Walk.bind

/-- Fail. -/
def fail (e : ParseError) : Walk α := fun _ c => (.error e, c)

/-- Give up. -/
def giveUp : Walk α := fun _ c => (.outOfFuel, c)

/-- Move the cursor. -/
def move (f : List Lexeme → Cursor → Cursor) : Walk Unit := fun tokens c => (.ok (), f tokens c)

/-- Look at the lexemes that are left. -/
def look (f : List Lexeme → α) : Walk α := fun tokens c => (.ok (f (c.left tokens)), c)

/-! ### Single lexemes -/

/-- Begin a part. -/
def enter (part : Part) : Walk Unit := move fun _ => Cursor.enter part

/-- The lexeme at the cursor. -/
def current : Walk (Option Lexeme) := look List.head?

/-- Pass over one lexeme. -/
def pass : Walk Unit := move fun _ => Cursor.past .pass 1

/-- Pass over line breaks. -/
def skipNewlines : Walk Unit :=
  move fun tokens => Cursor.skip tokens .pass fun t => t.token == .newline

/-- Pass over what separates statements. -/
def skipSeparators : Walk Unit :=
  move fun tokens => Cursor.skip tokens .pass fun t => t.token == .newline || t.token == .semicolon

/-- The lexeme that the grammar sees.  The cursor goes there. -/
def peek (step : Nat → Move) (free : Bool) : Walk (Option Lexeme) := do
  move fun tokens => Cursor.ahead tokens step free
  current

/-- Pass over this lexeme, which must be there. -/
def consume (step : Nat → Move) : Option Lexeme → Walk Lexeme
  | none => fail .endOfInput
  | some t => do
    move fun _ => Cursor.past step 1
    pure t

/-- The next lexeme, passed over by moves of a kind. -/
def nextBy (step : Nat → Move) (free : Bool) : Walk Lexeme := do
  consume step (← peek step free)

/-- The next lexeme. -/
def next (free : Bool) : Walk Lexeme := nextBy .pass free

/-- The first lexeme of an atom. -/
def takeFirst (free : Bool) : Walk Lexeme := do
  enter .atom
  nextBy .take free

/-- The next lexeme, which must be this token. -/
def expect (free : Bool) (token : Token) (what : String) : Walk Lexeme := do
  let t ← next free
  if t.token = token then pure t else fail (.expected what t)

/-- The next lexeme, which must be a name; with the name. -/
def expectName (free : Bool) (what : String) : Walk (String × Span) := do
  let t ← next free
  match t.token with
  | .ident name => pure (name, t.span)
  | _ => fail (.expected what t)

/-- Whether an alternative follows, over line breaks.  The cursor goes after its first word, or
back. -/
def findElse : Walk Bool := fun tokens c =>
  let found := c.skip tokens .pass fun t => t.token == .newline
  match found.left tokens with
  | [] => (.ok false, found.backTo c)
  | t :: _ =>
    if t.token = .elseWord then (.ok true, found.past .pass 1) else (.ok false, found.backTo c)

/-! ### The grammar -/

/-- The name of a parameter, and the names after it, which the other computation reads after a
comma. -/
def afterParam (others : Walk (List String)) (name : String) : Walk (List String) := do
  let sep ← next true
  if sep.token = .rightParen then pure [name]
  else if sep.token = .comma then do
    let names ← others
    pure (name :: names)
  else fail (.unexpected sep)

/-- Parameter names up to the closing parenthesis. -/
def params : Nat → Walk (List String)
  | 0 => giveUp
  | fuel + 1 => do
    enter .params
    let t ← next true
    match t.token with
    | .rightParen => pure []
    | .ident name => afterParam (params fuel) name
    | .dot => afterParam (params fuel) placeholder
    | _ => fail (.unexpected t)

mutual

/-- An expression whose operators all bind at least as tightly as `least`. -/
def expr : Nat → Bool → Nat → Walk Expr
  | 0, _, _ => giveUp
  | fuel + 1, free, least => do
    enter .expr
    let lhs ← operand fuel free
    infixTail fuel free least lhs

/-- The expression that starts with the operand `lhs`. -/
def infixTail : Nat → Bool → Nat → Expr → Walk Expr
  | 0, _, _, _ => giveUp
  | fuel + 1, free, least, lhs => do
    enter .infixTail
    match ← peek .pass free with
    | none => pure lhs
    | some t =>
      match InfixOp.ofToken? t.token with
      | none => pure lhs
      | some op =>
        if op.left < least then pure lhs
        else do
          pass
          skipNewlines
          let rhs ← expr fuel free op.right
          infixTail fuel free least (op.apply t.span lhs rhs)

/-- An atom with the arguments and fields after it. -/
def operand : Nat → Bool → Walk Expr
  | 0, _ => giveUp
  | fuel + 1, free => do
    enter .operand
    let lhs ← atom fuel free
    postfixTail fuel free lhs

/-- The operand that starts with `lhs`: arguments and fields that start at the next lexeme. -/
def postfixTail : Nat → Bool → Expr → Walk Expr
  | 0, _, _ => giveUp
  | fuel + 1, free, lhs => do
    enter .postfixTail
    match ← current with
    | none => pure lhs
    | some t =>
      match t.token with
      | .leftParen => do
        pass
        let (args, close) ← exprs fuel .rightParen
        postfixTail fuel free (.call lhs args (lhs.span.join close))
      | .dollar => do
        pass
        let (name, s) ← expectName free "field name after $"
        postfixTail fuel free (.field lhs name (lhs.span.join s))
      | _ => pure lhs

/-- An expression without operators, arguments and fields around it. -/
def atom : Nat → Bool → Walk Expr
  | 0, _ => giveUp
  | fuel + 1, free => do
    let t ← takeFirst free
    match Start.ofToken? t.token with
    | none => fail (.unexpected t)
    | some (.literal literal) => pure (.lit literal t.span)
    | some (.symbol name) => pure (.sym name t.span)
    | some (.sign op) => signed fuel free op t.span
    | some .paren => do
      let inner ← expr fuel true 0
      let close ← expect true .rightParen ")"
      pure (.paren inner (t.span.join close.span))
    | some .bracket => do
      let (items, close) ← exprs fuel .rightBracket
      pure (.list items (t.span.join close))
    | some .brace => do
      if ← look startsRecord then do
        let (fields, close) ← recordFields fuel
        pure (.record fields (t.span.join close))
      else do
        let stmts ← statements fuel (some .rightBrace)
        let close ← expect free .rightBrace "\x7d"
        pure (.block stmts (t.span.join close.span))
    | some .function => lambda fuel free t.span
    | some .condition => conditional fuel free t.span

/-- The operand of a sign that stands at `s`. -/
def signed : Nat → Bool → String → Span → Walk Expr
  | 0, _, _, _ => giveUp
  | fuel + 1, free, op, s => do
    enter .signed
    let operand ← expr fuel free Power.sign
    pure (.call (.sym op s) [operand] (s.join operand.span))

/-- A function after the word, or the backslash, at `s`. -/
def lambda : Nat → Bool → Span → Walk Expr
  | 0, _, _ => giveUp
  | fuel + 1, free, s => do
    enter .lambda
    let _ ← expect free .leftParen "("
    let names ← params ((← look List.length) + 1)
    skipNewlines
    let body ← expr fuel free Power.assign
    pure (.lambda names body (s.join body.span))

/-- A conditional after the word at `s`.  Its alternative may start on a later line. -/
def conditional : Nat → Bool → Span → Walk Expr
  | 0, _, _ => giveUp
  | fuel + 1, free, s => do
    enter .conditional
    let _ ← expect free .leftParen "("
    let cond ← expr fuel true 0
    let _ ← expect true .rightParen ")"
    skipNewlines
    let yes ← expr fuel free Power.assign
    if ← findElse then do
      skipNewlines
      let no ← expr fuel free Power.assign
      pure (.ifElse cond yes no (s.join no.span))
    else pure (.ifThen cond yes (s.join yes.span))

/-- Expressions between commas up to the closing token, with its span. -/
def exprs : Nat → Token → Walk (List Expr × Span)
  | 0, _ => giveUp
  | fuel + 1, close => do
    enter .exprs
    match ← peek .pass true with
    | none => do
      -- an expression is asked for all the same, and its first atom meets the end
      enter .expr
      enter .operand
      let t ← takeFirst true
      fail (.unexpected t)
    | some t =>
      if t.token = close then do
        pass
        pure ([], t.span)
      else do
        let first ← expr fuel true 0
        let sep ← next true
        if sep.token = close then pure ([first], sep.span)
        else if sep.token = .comma then do
          let (others, stop) ← exprs fuel close
          pure (first :: others, stop)
        else fail (.unexpected sep)

/-- Fields between commas up to the closing brace, with its span. -/
def recordFields : Nat → Walk (List (String × Expr) × Span)
  | 0 => giveUp
  | fuel + 1 => do
    enter .recordFields
    match ← peek .pass true with
    | none => fail .endOfInput
    | some t =>
      if t.token = .rightBrace then do
        pass
        pure ([], t.span)
      else do
        let (name, _) ← expectName true "field name"
        let _ ← expect true .colon ":"
        let first ← expr fuel true 0
        let sep ← next true
        if sep.token = .rightBrace then pure ([(name, first)], sep.span)
        else if sep.token = .comma then do
          let (others, stop) ← recordFields fuel
          pure ((name, first) :: others, stop)
        else fail (.unexpected sep)

/-- Statements up to the closing token, or to the end of the program if there is none. -/
def statements : Nat → Option Token → Walk (List Expr)
  | 0, _ => giveUp
  | fuel + 1, close => do
    enter .statements
    skipSeparators
    match ← current with
    | none => pure []
    | some t =>
      if some t.token = close then pure []
      else do
        let first ← expr fuel false 0
        match ← current with
        | none => pure [first]
        | some u =>
          if endsStatement close u then do
            let others ← statements fuel close
            pure (first :: others)
          else fail (.unexpected u)

end

/-- The statements of a program, which must be all that there is. -/
def program (fuel : Nat) : Walk (List Expr) := do
  let stmts ← statements fuel none
  match ← current with
  | none => pure stmts
  | some t => fail (.unexpected t)

/-- Read a program from its first lexeme on. -/
def ofProgram (tokens : List Lexeme) : Parsed (List Expr) × Cursor :=
  program (4 * tokens.length + 4) tokens .start

end Walk

end PipeLang.Parser
