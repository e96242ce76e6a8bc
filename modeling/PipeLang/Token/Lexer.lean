import PipeLang.Token.Literal

/-!
# The lexemes of a text

`Scan.ofChars` cuts a text into its longest lexemes from left to right, skipping blanks, up to the
end or to the first stretch that is no token: that stretch is the failure, and the lexemes before
it are kept.  `lex?` answers with the lexemes or with the failure alone, and `lexCode?` leaves out
the comments.
-/

namespace PipeLang

/-- The lexemes from the start of a text, and the failure that ended them, if any. -/
structure Scan where
  lexemes : List Lexeme
  failure : Option LexError
deriving DecidableEq

namespace Scan

/-- A scan that begins with one more lexeme. -/
def cons (first : Lexeme) (scan : Scan) : Scan := ⟨first :: scan.lexemes, scan.failure⟩

/-- The scan of a text whose first character is byte `offset` of the source. -/
def ofChars (offset : Nat) (text : List Char) : Scan :=
  match text with
  | [] => ⟨[], none⟩
  | c :: rest =>
    match LexClass.scan c rest with
    | none =>
      let stretch := c :: rest.take (LexClass.unscanned c rest)
      ⟨[], some ⟨⟨offset, byteLength stretch⟩, String.ofList stretch⟩⟩
    | some (cls, n) =>
      let lexeme := c :: rest.take n
      let length := byteLength lexeme
      if cls = .blank then ofChars (offset + length) (rest.drop n)
      else
        match cls.read? lexeme with
        | none => ⟨[], some ⟨⟨offset, length⟩, String.ofList lexeme⟩⟩
        | some token =>
          (ofChars (offset + length) (rest.drop n)).cons
            ⟨token, ⟨offset, length⟩, String.ofList lexeme⟩
termination_by text.length
decreasing_by all_goals simp only [List.length_drop, List.length_cons]; omega

/-- The lexemes of a whole text, or the failure. -/
def result (scan : Scan) : Except LexError (List Lexeme) :=
  match scan.failure with
  | none => .ok scan.lexemes
  | some e => .error e

end Scan

/-- The lexemes of a source text, comments included. -/
def lex? (source : String) : Except LexError (List Lexeme) :=
  (Scan.ofChars 0 source.toList).result

/-- The lexemes of a source text without its comments. -/
def lexCode? (source : String) : Except LexError (List Lexeme) :=
  (lex? source).map fun lexemes => lexemes.filter fun lexeme => lexeme.token != .comment

theorem lex?_eq_ok_iff {source : String} {lexemes : List Lexeme} :
    lex? source = .ok lexemes ↔ Scan.ofChars 0 source.toList = ⟨lexemes, none⟩ := by
  rw [lex?, Scan.result]
  rcases Scan.ofChars 0 source.toList with ⟨others, _ | e⟩ <;> simp

theorem lexCode?_of_ofChars {source : String} {lexemes : List Lexeme}
    (h : Scan.ofChars 0 source.toList = ⟨lexemes, none⟩) :
    lexCode? source = .ok (lexemes.filter fun lexeme => lexeme.token != .comment) := by
  rw [lexCode?, lex?, h]
  rfl

theorem exists_ofChars_of_lexCode? {source : String} {ts : List Lexeme}
    (h : lexCode? source = .ok ts) : ∃ lexemes, Scan.ofChars 0 source.toList = ⟨lexemes, none⟩ ∧
      lexemes.filter (fun t => t.token != .comment) = ts := by
  unfold lexCode? at h
  cases hlex : lex? source with
  | ok lexemes =>
    rw [hlex] at h
    cases h
    exact ⟨lexemes, lex?_eq_ok_iff.1 hlex, rfl⟩
  | error e =>
    rw [hlex] at h
    cases h

end PipeLang
