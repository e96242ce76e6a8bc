import PipeLang.Outcome
import PipeLang.Token.Lexer

/-!
# Reading lexemes

The parser works on the lexemes that are left, and every part of it answers with what it has read
and the lexemes after that.  Between parentheses and between brackets line breaks carry no
meaning: there `next` passes over them, as the argument `free` says.

`ParseError` names what can be wrong with a program.
-/

namespace PipeLang

/-- What is wrong with a program. -/
inductive ParseError where
  /-- There is no expression at all. -/
  | emptyInput
  /-- The program ends where more is needed. -/
  | endOfInput
  /-- Another token is needed here. -/
  | expected (what : String) (found : Lexeme)
  /-- No program goes on with this token. -/
  | unexpected (found : Lexeme)
  /-- The text holds something that is no token. -/
  | lexical (e : LexError)
deriving DecidableEq

/-- The text of the message. -/
def ParseError.message (e : ParseError) : String :=
  "parse error: " ++ match e with
    | emptyInput => "empty input"
    | endOfInput => "unexpected end of input"
    | expected what found =>
      "expected " ++ what ++ " at offset " ++ toString found.span.offset ++ ", found " ++
        Text.quote found.text
    | unexpected found =>
      "unexpected " ++ Text.quote found.text ++ " at offset " ++ toString found.span.offset
    | lexical e => e.message

namespace Parser

/-- What a part of the parser answers. -/
abbrev Parsed (α : Type) : Type := Outcome ParseError α

/-- The lexemes from the first one that is no line break. -/
def skipNewlines (ts : List Lexeme) : List Lexeme :=
  ts.dropWhile fun t => t.token == .newline

/-- The lexemes from the first one that separates no statements. -/
def skipSeparators (ts : List Lexeme) : List Lexeme :=
  ts.dropWhile fun t => t.token == .newline || t.token == .semicolon

/-- The lexemes as the grammar sees them: without leading line breaks where they carry no
meaning. -/
def ahead (free : Bool) (ts : List Lexeme) : List Lexeme :=
  if free then skipNewlines ts else ts

/-- The next lexeme. -/
def next (free : Bool) (ts : List Lexeme) : Parsed (Lexeme × List Lexeme) :=
  match ahead free ts with
  | [] => .error .endOfInput
  | t :: rest => .ok (t, rest)

/-- The next lexeme, which must be this token. -/
def expect (free : Bool) (token : Token) (what : String) (ts : List Lexeme) :
    Parsed (Lexeme × List Lexeme) := do
  let (t, rest) ← next free ts
  if t.token = token then .ok (t, rest) else .error (.expected what t)

/-- The next lexeme, which must be a name; with the name. -/
def expectName (free : Bool) (what : String) (ts : List Lexeme) :
    Parsed (String × Span × List Lexeme) := do
  let (t, rest) ← next free ts
  match t.token with
  | .ident name => .ok (name, t.span, rest)
  | _ => .error (.expected what t)

/-! ### Nothing is given back -/

theorem length_skipNewlines_le (ts : List Lexeme) : (skipNewlines ts).length ≤ ts.length :=
  (List.dropWhile_sublist _).length_le

theorem length_skipSeparators_le (ts : List Lexeme) : (skipSeparators ts).length ≤ ts.length :=
  (List.dropWhile_sublist _).length_le

theorem length_ahead_le (free : Bool) (ts : List Lexeme) : (ahead free ts).length ≤ ts.length := by
  cases free
  · exact Nat.le_refl _
  · exact length_skipNewlines_le ts

theorem length_lt_of_next {free : Bool} {ts rest : List Lexeme} {t : Lexeme}
    (h : next free ts = .ok (t, rest)) : rest.length < ts.length := by
  have := length_ahead_le free ts
  unfold next at h
  split at h
  · cases h
  · next hd =>
    cases h
    rw [hd, List.length_cons] at this
    omega

theorem length_lt_of_expect {free : Bool} {token : Token} {what : String}
    {ts rest : List Lexeme} {t : Lexeme} (h : expect free token what ts = .ok (t, rest)) :
    rest.length < ts.length := by
  obtain ⟨⟨u, tail⟩, hn, h⟩ := Outcome.bind_eq_ok_iff.1 h
  have := length_lt_of_next hn
  simp only at h
  split at h
  · cases h
    exact this
  · cases h

theorem length_lt_of_expectName {free : Bool} {what : String} {ts rest : List Lexeme}
    {name : String} {s : Span} (h : expectName free what ts = .ok (name, s, rest)) :
    rest.length < ts.length := by
  obtain ⟨⟨u, tail⟩, hn, h⟩ := Outcome.bind_eq_ok_iff.1 h
  have := length_lt_of_next hn
  simp only at h
  split at h
  · cases h
    exact this
  · cases h

/-! ### Reading one lexeme needs no fuel -/

theorem next_ne_outOfFuel (free : Bool) (ts : List Lexeme) : next free ts ≠ .outOfFuel := by
  unfold next
  split <;> simp

theorem expect_ne_outOfFuel (free : Bool) (token : Token) (what : String) (ts : List Lexeme) :
    expect free token what ts ≠ .outOfFuel := by
  intro h
  rcases Outcome.bind_eq_outOfFuel_iff.1 h with h | ⟨_, _, h⟩
  · exact next_ne_outOfFuel free ts h
  · simp only at h
    split at h <;> cases h

theorem expectName_ne_outOfFuel (free : Bool) (what : String) (ts : List Lexeme) :
    expectName free what ts ≠ .outOfFuel := by
  intro h
  rcases Outcome.bind_eq_outOfFuel_iff.1 h with h | ⟨_, _, h⟩
  · exact next_ne_outOfFuel free ts h
  · simp only at h
    split at h <;> cases h

end Parser

end PipeLang
