import PipeLang.Proofs.Lexing

/-!
# What the lexer gives

The lexemes of a source text hold only names, special operators and whole numbers that have a
spelling (`Token.Spelled`).  A word of the language is read as a name only before a colon, so such
a name never stands anywhere else (`lexed_of_lexCode?`).
-/

namespace PipeLang

/-- A token that a source text can hold before another one: its operator or its number can be
written, and so can its name, which is a word of the language only before a colon. -/
def Token.Spelled (next : Option Token) : Token → Prop
  | .ident name => IsName name ∧ (LexClass.readWord name = .ident name ∨ next = some .colon)
  | .special op => IsSpecial op
  | .int n => 0 ≤ n.toInt
  | _ => True

/-- Lexemes of a source text. -/
inductive Lexed : List Lexeme → Prop
  | nil : Lexed []
  | cons {t : Lexeme} {ts : List Lexeme} (spelled : t.token.Spelled (ts.head?.map Lexeme.token))
      (rest : Lexed ts) : Lexed (t :: ts)

/-- The colon that a text starts with, if any. -/
def leadingColon : List Char → Option Token
  | ':' :: _ => some .colon
  | _ => none

variable {c : Char} {n : Nat} {cls : LexClass} {rest : List Char} {token : Token}

/-! ### What starts a lexeme -/

namespace LexClass

/-- How the longest lexeme of a text comes by its class and its length. -/
inductive Found (c : Char) (rest : List Char) : LexClass → Nat → Prop
  | blank (h : isBlank c = true) : Found c rest .blank (run isBlank rest)
  | comment (h : c = '#') : Found c rest .comment (run (· != '\n') rest)
  | word {cls : LexClass} {n : Nat} (h : startsName c = true) (hword : wordTail rest = (cls, n)) :
      Found c rest cls n
  | int (base n : Nat) : Found c rest (.int base) n
  | float (n : Nat) : Found c rest .float n
  | special {n : Nat} (h : c = '%') (hclosed : specialTail rest = (n, true)) :
      Found c rest .special n
  | str {n : Nat} (h : c = '"') (hclosed : stringTail rest = (n, true)) : Found c rest .str n
  | mark {token : Token} {n : Nat} (hmark : mark? c rest = some (token, n)) :
      Found c rest (.mark token) n

/-- After a digit comes the rest of a whole number or of a floating-point one. -/
theorem found_of_numberTail {first : Char} (h : numberTail first rest = (cls, n)) :
    Found c rest cls n := by
  have hdecimal : ∀ text, decimalTail text = (cls, n) → Found c rest cls n := by
    intro text hdecimal
    simp only [decimalTail] at hdecimal
    split at hdecimal
    · cases hdecimal
      exact .int 10 _
    · cases hdecimal
      exact .float _
  unfold numberTail at h
  split at h
  · split at h
    · dsimp only at h
      split at h
      · cases h
        exact .int _ _
      · exact hdecimal _ h
    · exact hdecimal _ h
  · exact hdecimal _ h

/-- A scan takes one of these lexemes. -/
theorem found_of_scan (h : scan c rest = some (cls, n)) : Found c rest cls n := by
  -- the cases of the scanner in their order; those before a case are excluded in it
  unfold scan at h
  split at h
  case isTrue hc =>
    cases h
    exact .blank hc
  split at h
  case isTrue hc =>
    cases h
    exact .comment hc
  split at h
  case isTrue hc => exact .word hc (Option.some.inj h)
  split at h
  case isTrue => exact found_of_numberTail (Option.some.inj h)
  split at h
  case isTrue =>
    cases h
    exact .float _
  split at h
  case isTrue hc =>
    split at h
    · next hclosed =>
      cases h
      exact .special hc hclosed
    · cases h
  split at h
  case isTrue hc =>
    split at h
    · next hclosed =>
      cases h
      exact .str hc hclosed
    · cases h
  obtain ⟨⟨token, m⟩, hmark, h⟩ := Option.map_eq_some_iff.1 h
  cases h
  exact .mark hmark

end LexClass

/-! ### Every token can be spelled -/

/-- What is taken in a run has the property of the run. -/
theorem of_mem_take_run {p : Char → Bool} {text : List Char} {x : Char}
    (hx : x ∈ text.take (LexClass.run p text)) : p x = true := by
  rw [LexClass.run, ← List.prefix_iff_eq_take.1 (List.takeWhile_prefix p)] at hx
  exact List.all_eq_true.1 List.all_takeWhile x hx

/-- The qualifying parts of a name are taken as such. -/
theorem isQualification_take (text : List Char) :
    IsQualification (text.take (LexClass.qualification text)) := by
  unfold LexClass.qualification
  split
  · next c rest =>
    split
    · next hc =>
      exact .inr ⟨c, rest.take (LexClass.run LexClass.continuesName rest), rfl, hc,
        fun x hx => of_mem_take_run hx⟩
    · exact .inl rfl
  · exact .inl rfl

theorem isName_take (hc : LexClass.startsName c = true) (rest : List Char) :
    IsName (String.ofList (c :: rest.take (LexClass.nameTail rest))) := by
  refine ⟨c, rest.take (LexClass.run LexClass.continuesName rest), _, ?_, hc,
    fun x hx => of_mem_take_run hx,
    isQualification_take (rest.drop (LexClass.run LexClass.continuesName rest))⟩
  rw [String.toList_ofList, LexClass.nameTail, List.take_add]

/-- What is taken up to the second percent sign is an operator. -/
theorem isSpecial_take (h : LexClass.specialTail rest = (n, true)) :
    IsSpecial (String.ofList ('%' :: rest.take n)) := by
  simp only [LexClass.specialTail] at h
  split at h
  · next others hdrop =>
    cases h
    refine ⟨rest.take (LexClass.run LexClass.continuesSpecial rest), ?_,
      fun x hx => of_mem_take_run hx⟩
    rw [String.toList_ofList, List.take_add, hdrop]
    rfl
  · cases h

/-- The numbers that are read are not negative, since signs are lexemes of their own. -/
theorem spelled_readInt? {base : Nat} {text : List Char} {w : Int64}
    (h : LexClass.readInt? base text = some w) : 0 ≤ w.toInt := by
  simp only [LexClass.readInt?] at h
  by_cases hdigits : LexClass.dropUnderscores (if base = 10 then text else text.drop 2) = []
  · rw [if_pos hdigits] at h
    cases h
  · rw [if_neg hdigits] at h
    rw [int64?_eq_some_iff.1 h]
    exact Int.natCast_nonneg _

variable {next : Option Token}

theorem spelled_of_mark? (h : LexClass.mark? c rest = some (token, n)) : token.Spelled next := by
  unfold LexClass.mark? at h
  split at h
  all_goals first | (cases h; trivial) | cases h

/-- A word is a keyword or a name, and each of them can be spelled. -/
theorem spelled_readWord {name : String} (h : IsName name) :
    (LexClass.readWord name).Spelled next := by
  by_cases hword : LexClass.readWord name = .ident name
  · rw [hword]
    exact ⟨h, .inl hword⟩
  · revert hword
    unfold LexClass.readWord
    repeat' split
    all_goals (intro _; trivial)

/-- A word with a colon behind it is spelled with that colon in mind. -/
theorem spelled_of_word (hc : LexClass.startsName c = true)
    (hword : LexClass.wordTail rest = (cls, n))
    (hread : cls.read? (c :: rest.take n) = some token) :
    token.Spelled (leadingColon (rest.drop n)) := by
  have hname := isName_take hc rest
  simp only [LexClass.wordTail] at hword
  split at hword
  · next h =>
    cases hword
    cases hread
    rw [h]
    exact ⟨hname, .inr rfl⟩
  · cases hword
    cases hread
    exact spelled_readWord hname

/-- Every token that is read can be spelled before what follows it. -/
theorem spelled_of_scan (hscan : LexClass.scan c rest = some (cls, n))
    (hread : cls.read? (c :: rest.take n) = some token) :
    token.Spelled (leadingColon (rest.drop n)) := by
  -- comments are spelled by their text, the other tokens by what has been taken for them
  cases LexClass.found_of_scan hscan with
  | blank => cases hread
  | comment =>
    cases hread
    trivial
  | word hc hword => exact spelled_of_word hc hword hread
  | int base =>
    obtain ⟨w, hw, rfl⟩ := Option.map_eq_some_iff.1 hread
    exact spelled_readInt? hw
  | float =>
    obtain ⟨x, -, rfl⟩ := Option.map_eq_some_iff.1 hread
    trivial
  | special hc hclosed =>
    cases hread
    rw [hc]
    exact isSpecial_take hclosed
  | str =>
    obtain ⟨x, -, rfl⟩ := Option.map_eq_some_iff.1 hread
    trivial
  | mark hmark =>
    cases hread
    exact spelled_of_mark? hmark

/-! ### The lexemes of a text -/

/-- How a token is spelled depends on whether a colon follows, and on nothing else there. -/
theorem Token.Spelled.mono {next next' : Option Token} (h : token.Spelled next)
    (hnext : next = some .colon → next' = some .colon) : token.Spelled next' := by
  cases token
  case ident name => exact ⟨h.1, h.2.imp_right hnext⟩
  all_goals exact h

/-- A colon at the start of a text is its first lexeme. -/
theorem head?_ofChars_of_leadingColon {text : List Char} {offset : Nat} {lexemes : List Lexeme}
    (htext : leadingColon text = some .colon) (h : Scan.ofChars offset text = ⟨lexemes, none⟩) :
    (lexemes.filter fun t => t.token != .comment).head?.map Lexeme.token = some .colon := by
  unfold leadingColon at htext
  split at htext
  · next rest =>
    have hscan : LexClass.scan ':' rest = some (.mark .colon, 0) := rfl
    rw [Scan.ofChars, hscan] at h
    obtain rfl := congrArg Scan.lexemes h
    rfl
  · cases htext

/-- The lexemes of a text, without the comments, can be spelled again. -/
theorem lexed_ofChars (offset : Nat) (text : List Char) {lexemes : List Lexeme}
    (h : Scan.ofChars offset text = ⟨lexemes, none⟩) :
    Lexed (lexemes.filter fun t => t.token != .comment) := by
  cases text with
  | nil =>
    rw [Scan.ofChars] at h
    cases h
    exact .nil
  | cons c rest =>
    rw [Scan.ofChars] at h
    split at h
    · cases h
    · next cls n hscan =>
      have hlength : (rest.drop n).length < (c :: rest).length := by
        rw [List.length_drop, List.length_cons]
        omega
      dsimp only at h
      split at h
      -- blanks give no lexeme
      · exact lexed_ofChars _ (rest.drop n) h
      · split at h
        · cases h
        · next token hread =>
          -- a lexeme before those of the rest, or a comment, which is left out
          generalize hafter : Scan.ofChars _ (rest.drop n) = after at h
          obtain ⟨others, failure⟩ := after
          cases h
          have hothers := lexed_ofChars _ (rest.drop n) hafter
          rw [List.filter_cons]
          split
          · have hspelled := spelled_of_scan hscan hread
            exact .cons (hspelled.mono fun hcolon => head?_ofChars_of_leadingColon hcolon hafter)
              hothers
          · exact hothers
termination_by text.length

/-- The lexemes of a source text can all be spelled, and the words of the language among the names
stand before colons. -/
theorem lexed_of_lexCode? {source : String} {ts : List Lexeme} (h : lexCode? source = .ok ts) :
    Lexed ts := by
  obtain ⟨lexemes, hscan, rfl⟩ := exists_ofChars_of_lexCode? h
  exact lexed_ofChars 0 source.toList hscan

end PipeLang
