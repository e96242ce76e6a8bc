import PipeLang.Parser.Operator
import PipeLang.Proofs.Escapes
import PipeLang.Token.Lexer
import PipeLang.Token.Spelling

/-!
# Rules of the lexer

`Lexes text ts` says that a text is cut into the tokens `ts`, wherever it stands.  The rules below
put one more token before a text: marks (`lexes_mark`), names and words (`lexes_word`,
`lexes_label`), numbers, strings and infix operators.

A token is the longest one possible, so a rule depends on what follows.  Marks stand for
themselves.  Names and numbers end where the text is `Delimited`, and infix operators are followed
by a blank.
-/

namespace PipeLang

/-- A text with these tokens, comments left out. -/
def Lexes (text : List Char) (ts : List Token) : Prop :=
  ∀ offset, ∃ lexemes, Scan.ofChars offset text = ⟨lexemes, none⟩ ∧
    (lexemes.filter fun t => t.token != .comment).map Lexeme.token = ts

/-- No name or number goes on here, and no colon follows. -/
def Delimited (text : List Char) : Prop :=
  ∀ c ∈ text.head?, LexClass.continuesName c = false ∧ c ≠ ':'

variable {c : Char} {n : Nat} {cls : LexClass} {text tail rest : List Char} {token t : Token}
  {ts : List Token} {name : String}

theorem delimited_nil : Delimited [] := by simp [Delimited]

/-- A source text with these tokens. -/
theorem exists_lexCode? {source : String} (h : Lexes source.toList ts) :
    ∃ lexemes, lexCode? source = .ok lexemes ∧ lexemes.map Lexeme.token = ts := by
  obtain ⟨lexemes, hscan, hts⟩ := h 0
  exact ⟨_, lexCode?_of_ofChars hscan, hts⟩

/-! ### One step -/

theorem lexes_nil : Lexes [] [] := fun offset => ⟨[], by rw [Scan.ofChars], rfl⟩

/-- A text that is one lexeme and more is lexed if the rest is, whatever is left out being blank. -/
theorem lexes_append (tail : List Char)
    (hscan : LexClass.scan c (tail ++ rest) = some (cls, tail.length)) (hcls : cls ≠ .blank)
    (hread : cls.read? (c :: tail) = some token) (htoken : token ≠ .comment)
    (h : Lexes rest ts) : Lexes (c :: (tail ++ rest)) (token :: ts) := by
  intro offset
  obtain ⟨lexemes, hrest, hts⟩ := h (offset + byteLength (c :: tail))
  rw [Scan.ofChars, hscan]
  simp only [List.take_left, List.drop_left, hcls, if_false, hread, hrest]
  refine ⟨_, rfl, ?_⟩
  simp only [List.filter_cons, bne_iff_ne.2 htoken, if_true, List.map_cons, hts]

/-- Blanks are taken as far as they go. -/
theorem scan_of_isBlank (h : LexClass.isBlank c = true) (rest : List Char) :
    LexClass.scan c rest = some (.blank, LexClass.run LexClass.isBlank rest) := if_pos h

/-- A blank in front of a text only moves its lexemes on. -/
theorem ofChars_blank (offset : Nat) (rest : List Char) :
    Scan.ofChars offset (' ' :: rest) = Scan.ofChars (offset + 1) rest := by
  rw [Scan.ofChars, scan_of_isBlank rfl]
  simp only [if_true]
  cases rest with
  | nil => rfl
  | cons c rest =>
    -- further blanks are taken in the same step, or there are none
    by_cases hc : LexClass.isBlank c = true
    · have hrun : LexClass.run LexClass.isBlank (c :: rest) =
          LexClass.run LexClass.isBlank rest + 1 := by
        rw [LexClass.run, List.takeWhile_cons_of_pos hc]
        rfl
      rw [Scan.ofChars, scan_of_isBlank hc, hrun]
      simp only [if_true, List.take_succ_cons, List.drop_succ_cons, byteLength_cons]
      congr 1
      simp [Char.utf8Size]
      omega
    · have hrun : LexClass.run LexClass.isBlank (c :: rest) = 0 := by
        rw [LexClass.run, List.takeWhile_cons_of_neg hc]
        rfl
      rw [hrun]
      rfl

/-- A blank separates tokens. -/
theorem lexes_blank (h : Lexes rest ts) : Lexes (' ' :: rest) ts := by
  intro offset
  rw [ofChars_blank]
  exact h (offset + 1)

/-! ### Marks -/

/-- A mark that is not part of a longer one, whatever follows. -/
theorem lexes_mark (c : Char) (hscan : ∀ rest, LexClass.scan c rest = some (.mark token, 0))
    (htoken : token ≠ .comment) (h : Lexes rest ts) : Lexes (c :: rest) (token :: ts) :=
  lexes_append [] (hscan rest) (by simp) rfl htoken h

theorem lexes_leftParen (h : Lexes rest ts) : Lexes ('(' :: rest) (.leftParen :: ts) :=
  lexes_mark '(' (fun _ => rfl) (by simp) h

theorem lexes_rightParen (h : Lexes rest ts) : Lexes (')' :: rest) (.rightParen :: ts) :=
  lexes_mark ')' (fun _ => rfl) (by simp) h

theorem lexes_leftBrace (h : Lexes rest ts) : Lexes ('\x7b' :: rest) (.leftBrace :: ts) :=
  lexes_mark '\x7b' (fun _ => rfl) (by simp) h

theorem lexes_rightBrace (h : Lexes rest ts) : Lexes ('\x7d' :: rest) (.rightBrace :: ts) :=
  lexes_mark '\x7d' (fun _ => rfl) (by simp) h

/-- A dot is one lexeme where no further part of a name or a number follows. -/
theorem lexes_dot (hrest : Delimited rest) (h : Lexes rest ts) :
    Lexes ('.' :: rest) (.dot :: ts) := by
  have hfraction : LexClass.fractionPart ('.' :: rest) = 0 := by
    cases rest with
    | nil => rfl
    | cons c rest =>
      have hname := (hrest c rfl).1
      simp only [LexClass.continuesName, Char.isAlphanum, Bool.or_eq_false_iff] at hname
      simp [LexClass.fractionPart, hname]
  have hscan : LexClass.scan '.' rest = some (.mark .dot, 0) := by
    simp only [LexClass.scan, hfraction]
    rfl
  exact lexes_append [] hscan (by simp) rfl (by simp) h

/-- So is an exclamation mark, where no equals sign follows. -/
theorem lexes_bang (hrest : rest.head? ≠ some '=') (h : Lexes rest ts) :
    Lexes ('!' :: rest) (.bang :: ts) := by
  have hscan : LexClass.scan '!' rest = some (.mark .bang, 0) := by
    cases rest with
    | nil => rfl
    | cons c rest =>
      have hc : c ≠ '=' := fun h => hrest (congrArg some h)
      show (LexClass.mark? '!' (c :: rest)).map _ = _
      rw [LexClass.mark?]
      · rfl
      · rintro tail ⟨⟩
        exact hc rfl
  exact lexes_append [] hscan (by simp) rfl (by simp) h

/-! ### Operators -/

/-- An operator between percent signs. -/
def IsSpecial (op : String) : Prop :=
  ∃ name, op.toList = '%' :: (name ++ ['%']) ∧ ∀ c ∈ name, LexClass.continuesSpecial c = true

/-- An operator between percent signs ends at the second one, whatever follows. -/
theorem lexes_special {op : String} (hop : IsSpecial op) (h : Lexes rest ts) :
    Lexes (op.toList ++ rest) (.special op :: ts) := by
  obtain ⟨name, hlist, hname⟩ := hop
  have hrun : LexClass.run LexClass.continuesSpecial (name ++ '%' :: rest) = name.length :=
    LexClass.run_append hname (by rintro c ⟨⟩; rfl)
  have htail : LexClass.specialTail (name ++ '%' :: rest) = (name.length + 1, true) := by
    simp only [LexClass.specialTail, hrun, List.drop_left]
  have hscan : LexClass.scan '%' (name ++ ['%'] ++ rest) =
      some (LexClass.special, (name ++ ['%']).length) := by
    rw [List.append_assoc, List.length_append]
    exact LexClass.scan_percent_iff.2 ⟨htail, rfl⟩
  have hread : LexClass.special.read? ('%' :: (name ++ ['%'])) = some (.special op) := by
    rw [LexClass.read?, ← hlist, String.ofList_toList]
  rw [hlist, List.cons_append]
  exact lexes_append _ hscan (by simp) hread (by simp) h

/-- An infix operator before a blank. -/
theorem lexes_infix {op : InfixOp} (ht : InfixOp.ofToken? t = some op)
    (hspecial : ∀ name, t = .special name → IsSpecial name) (h : Lexes rest ts) :
    Lexes (t.spelling.toList ++ ' ' :: rest) (t :: ts) := by
  have hrest := lexes_blank h
  cases t
  case special name => exact lexes_special (hspecial name rfl) hrest
  case plus | minus | star | slash | less | greater =>
    exact lexes_append [] rfl (by simp) rfl (by simp) hrest
  case leftArrow | orOr | andAnd | lessEq | greaterEq | eqEq | bangEq =>
    exact lexes_append [_] rfl (by simp) rfl (by simp) hrest
  case superArrow => exact lexes_append [_, _] rfl (by simp) rfl (by simp) hrest
  all_goals cases ht

/-! ### Names -/

/-- The second half of a qualified name, or nothing. -/
def IsQualification (text : List Char) : Prop :=
  text = [] ∨ ∃ c rest, text = ':' :: ':' :: c :: rest ∧ LexClass.startsName c = true ∧
    ∀ x ∈ rest, LexClass.continuesName x = true

/-- A name, plain or qualified, or a word of the language. -/
def IsName (name : String) : Prop :=
  ∃ c plain tail, name.toList = c :: (plain ++ tail) ∧ LexClass.startsName c = true ∧
    (∀ x ∈ plain, LexClass.continuesName x = true) ∧ IsQualification tail

/-- A name that is no word of the language. -/
def IsIdentifier (name : String) : Prop :=
  IsName name ∧ LexClass.readWord name = .ident name

/-- What begins a name is lexed as a word. -/
theorem scan_of_startsName (h : LexClass.startsName c = true) (rest : List Char) :
    LexClass.scan c rest = some (LexClass.wordTail rest) := by
  have hne : ∀ d, LexClass.startsName d = false → c ≠ d := by
    rintro d hd rfl
    rw [h] at hd
    cases hd
  have hblank : LexClass.isBlank c = false := by
    simp [LexClass.isBlank, hne ' ' (by decide), hne '\t' (by decide), hne '\r' (by decide)]
  simp only [LexClass.scan, hblank, Bool.false_eq_true, if_false, hne '#' (by decide), h, if_true]

/-- A name reaches as far as its characters, if the text does not go on with a name or a
qualification. -/
theorem nameTail_append {plain tail rest : List Char}
    (hplain : ∀ x ∈ plain, LexClass.continuesName x = true) (htail : IsQualification tail)
    (hrest : ∀ x ∈ rest.head?, LexClass.continuesName x = false)
    (hqualified : LexClass.qualification rest = 0) :
    LexClass.nameTail (plain ++ tail ++ rest) = (plain ++ tail).length := by
  rw [List.append_assoc]
  rcases htail with rfl | ⟨c, others, rfl, hc, hothers⟩
  · have hrun : LexClass.run LexClass.continuesName (plain ++ rest) = plain.length :=
      LexClass.run_append hplain hrest
    simp only [LexClass.nameTail, List.nil_append, hrun, List.drop_left, hqualified,
      List.append_nil, Nat.add_zero]
  · have hrun : LexClass.run LexClass.continuesName (plain ++ ':' :: ':' :: c :: (others ++ rest)) =
        plain.length := LexClass.run_append hplain (by rintro x ⟨⟩; rfl)
    simp only [LexClass.nameTail, List.cons_append, hrun, List.drop_left, LexClass.qualification,
      hc, if_true, LexClass.run_append hothers hrest, List.length_append, List.length_cons]

/-- A word is read as a name or as one of the words of the language. -/
theorem readWord_ne {t : Token} (hname : ∀ name, t ≠ .ident name)
    (hword : t ∉ [.functionWord, .ifWord, .elseWord, .trueWord, .falseWord, .nullWord])
    (name : String) : LexClass.readWord name ≠ t := by
  simp only [List.mem_cons, List.not_mem_nil, or_false, not_or] at hword
  unfold LexClass.readWord
  repeat' split
  all_goals
    rintro rfl
    simp at hname hword

/-- A name before a text that goes on with no name. -/
theorem lexes_word (hname : IsName name) (hrest : Delimited rest) (h : Lexes rest ts) :
    Lexes (name.toList ++ rest) (LexClass.readWord name :: ts) := by
  obtain ⟨c, plain, tail, hlist, hc, hplain, htail⟩ := hname
  have hqualified : LexClass.qualification rest = 0 := by
    rw [LexClass.qualification]
    rintro d others rfl
    exact absurd rfl (hrest ':' rfl).2
  have hn := nameTail_append hplain htail (fun x hx => (hrest x hx).1) hqualified
  have hword : LexClass.wordTail (plain ++ tail ++ rest) =
      (LexClass.word, (plain ++ tail).length) := by
    simp only [LexClass.wordTail, hn, List.drop_left]
    split
    · exact absurd rfl (hrest ':' rfl).2
    · rfl
  have hread : LexClass.word.read? (c :: (plain ++ tail)) = some (LexClass.readWord name) := by
    rw [LexClass.read?, ← hlist, String.ofList_toList]
  rw [hlist, List.cons_append]
  exact lexes_append _ ((scan_of_startsName hc _).trans (congrArg some hword)) (by simp) hread
    (readWord_ne (by simp) (by simp) name) h

/-- A name is one lexeme where nothing follows that would continue it. -/
theorem lexes_identifier (hname : IsIdentifier name) (hrest : Delimited rest) (h : Lexes rest ts) :
    Lexes (name.toList ++ rest) (.ident name :: ts) :=
  hname.2 ▸ lexes_word hname.1 hrest h

/-- A name before a colon, even if it is a word of the language. -/
theorem lexes_label (hname : IsName name) (h : Lexes rest ts) :
    Lexes (name.toList ++ ':' :: ' ' :: rest) (.ident name :: .colon :: ts) := by
  obtain ⟨c, plain, tail, hlist, hc, hplain, htail⟩ := hname
  have hn : LexClass.nameTail (plain ++ tail ++ ':' :: ' ' :: rest) = (plain ++ tail).length :=
    nameTail_append hplain htail (by rintro x ⟨⟩; rfl) rfl
  have hword : LexClass.wordTail (plain ++ tail ++ ':' :: ' ' :: rest) =
      (LexClass.label, (plain ++ tail).length) := by
    simp only [LexClass.wordTail, hn, List.drop_left]
  have hread : LexClass.label.read? (c :: (plain ++ tail)) = some (.ident name) := by
    rw [LexClass.read?, ← hlist, String.ofList_toList]
  rw [hlist, List.cons_append]
  have hscan := (scan_of_startsName hc _).trans (congrArg some hword)
  exact lexes_append _ hscan (by simp) hread (by simp)
    (lexes_mark ':' (fun _ => rfl) (by simp) (lexes_blank h))

/-! ### Literals -/

/-- A quoted string ends at its closing quote, since the quotes in it are escaped. -/
theorem lexes_str (s : String) (h : Lexes rest ts) :
    Lexes ((Text.quote s).toList ++ rest) (.str s :: ts) := by
  have hprinted := LexClass.each_escapeChar s.toList
  have hread : LexClass.str.read? (Text.quoteChars s.toList) = some (.str s) := by
    have hdenoted :=
      LexClass.read?_quoted_of_denotes (.whole (hprinted.mono LexClass.Writes.stands))
    rw [String.ofList_toList] at hdenoted
    exact hdenoted
  rw [Text.quote, String.toList_ofList]
  exact lexes_append _ (LexClass.scan_quoted hprinted.inside rest) (by simp) hread (by simp) h

/-- What begins with a digit is lexed as a number. -/
theorem scan_digitChar {d : Nat} (h : d < 10) (rest : List Char) :
    LexClass.scan d.digitChar rest = some (LexClass.numberTail d.digitChar rest) := by
  have hfacts : ∀ d < 10, LexClass.isBlank (Nat.digitChar d) = false ∧ Nat.digitChar d ≠ '#' ∧
      LexClass.startsName (Nat.digitChar d) = false ∧ (Nat.digitChar d).isDigit = true := by decide
  obtain ⟨hblank, hcomment, hname, hdigit⟩ := hfacts d h
  simp only [LexClass.scan, hblank, hcomment, hname, hdigit, Bool.false_eq_true, if_false, if_true]

/-- A whole number that is not negative is one lexeme. -/
theorem lexes_int {n : Int64} (hn : 0 ≤ n.toInt) (hrest : Delimited rest) (h : Lexes rest ts) :
    Lexes ((toString n.toInt).toList ++ rest) (.int n :: ts) := by
  obtain ⟨k, hk⟩ := Int.eq_ofNat_of_zero_le hn
  have hdigits : (toString n.toInt).toList = Nat.toDigits 10 k := by
    rw [hk]
    exact Nat.toList_repr
  have hmem : ∀ x ∈ Nat.toDigits 10 k, ∃ d < 10, x = d.digitChar :=
    fun x hx => exists_digitChar_of_mem_toDigits (by decide) hx
  have hread : (LexClass.int 10).read? (Nat.toDigits 10 k) = some (.int n) := by
    rw [LexClass.read?, LexClass.readInt?_toDigits, ← hk, int64?_toInt, Option.map_some]
  rw [hdigits]
  cases hlist : Nat.toDigits 10 k with
  | nil => exact absurd hlist Nat.toDigits_ne_nil
  | cons c digits =>
    rw [hlist] at hmem hread
    obtain ⟨⟨d, hd, rfl⟩, hothers⟩ := List.forall_mem_cons.1 hmem
    have htail : LexClass.numberTail d.digitChar (digits ++ rest) = (.int 10, digits.length) :=
      LexClass.numberTail_append hothers fun x hx => (hrest x hx).1
    rw [List.cons_append]
    have hscan := (scan_digitChar hd _).trans (congrArg some htail)
    exact lexes_append _ hscan (by simp) hread (by simp) h

end PipeLang
