import PipeLang.Expr.Printer
import PipeLang.Proofs.Tiling

/-!
# String literals

A string literal is a lexeme of its own, for the string that its inside denotes, whatever stands
after it and whatever lexemes stand before it (`ofChars_quoted`).  So every string is read back from
what a printer writes for it (`string_literals_round_trip`).

The other way round, a string token comes from a literal whose inside denotes the string, and a
literal with an escape that names no character is a failure of the lexer
(`unicode_escapes_are_checked`).  Numbers of characters are read leniently: between blanks, after a
plus sign, and up to the end of the literal if there is no closing brace
(`lenient_escapes_are_accepted`).
-/

namespace PipeLang

open LexClass (Inside Denotes HasBadEscape HasLenientEscape Each Stands IsNumberOf Writes quoted)

variable {inner chars : List Char}

/-! ### The lexeme of a literal -/

theorem ofChars_quoted (hinner : Inside inner) (hchars : Denotes inner chars) (offset : Nat)
    (after : List Char) :
    Scan.ofChars offset (quoted inner ++ after) =
      (Scan.ofChars (offset + byteLength (quoted inner)) after).cons
        ⟨.str (String.ofList chars), ⟨offset, byteLength (quoted inner)⟩,
          String.ofList (quoted inner)⟩ :=
  ofChars_cons_lexeme offset (LexClass.scan_quoted hinner after) rfl (by simp)
    (LexClass.read?_quoted_of_denotes hchars)

theorem ofChars_quoted_of_none (hinner : Inside inner) (hnone : ∀ chars, ¬ Denotes inner chars)
    (offset : Nat) (after : List Char) :
    Scan.ofChars offset (quoted inner ++ after) =
      ⟨[], some ⟨⟨offset, byteLength (quoted inner)⟩, String.ofList (quoted inner)⟩⟩ := by
  have hread : LexClass.str.read? (quoted inner) = none := by
    rw [LexClass.read?_quoted, Option.map_eq_none_iff, Option.eq_none_iff_forall_ne_some]
    exact fun chars h => hnone chars (LexClass.unescape?_eq_some_iff.1 h)
  rw [quoted] at hread ⊢
  rw [List.cons_append, Scan.ofChars, LexClass.scan_quoted hinner after]
  simp only [List.take_left]
  rw [hread]
  rfl

/-! ### Round trips -/

/-- A string is read back from its literal, however a printer writes its characters, and in
particular from the print of its node: the whole text is one token, for the string. -/
theorem string_literals_round_trip (s : String) :
    (∀ inner, Each Writes inner s.toList →
      let text := String.ofList (quoted inner)
      lex? text = .ok [⟨.str s, ⟨0, text.utf8ByteSize⟩, text⟩]) ∧
    ∀ span,
      let text := (Expr.lit (.str s) span).print
      lex? text = .ok [⟨.str s, ⟨0, text.utf8ByteSize⟩, text⟩] := by
  have hwritten : ∀ inner, Each Writes inner s.toList →
      let text := String.ofList (quoted inner)
      lex? text = .ok [⟨.str s, ⟨0, text.utf8ByteSize⟩, text⟩] := by
    intro inner h text
    have hscan := ofChars_quoted h.inside (.whole (h.mono Writes.stands)) 0 []
    rw [List.append_nil, Scan.ofChars, String.ofList_toList] at hscan
    rw [lex?_eq_ok_iff, String.toList_ofList, hscan, utf8ByteSize_ofList]
    rfl
  exact ⟨hwritten, fun span => hwritten _ (LexClass.each_escapeChar s.toList)⟩

/-- A letter, an accent that is written by its number with a leading zero, and a line break. -/
theorem accent_by_number_reads_back :
    Each Writes ['a', '\\', 'u', '\x7b', '0', '3', '0', '1', '\x7d', '\\', 'n']
        "a\u0301\n".toList ∧
      lex? "\"a\\u\x7b0301\x7d\\n\"" =
        .ok [⟨.str "a\u0301\n", ⟨0, 13⟩, "\"a\\u\x7b0301\x7d\\n\""⟩] := by
  have hchars : "a\u0301\n".toList = ['a', '\u0301', '\n'] := by decide +kernel
  have hnumber : LexClass.IsNumberOf ['0', '3', '0', '1'] '\u0301' :=
    ⟨by decide, List.all_eq_true.1 (by decide), by decide⟩
  have hlast : Each Writes ['\\', 'n'] ['\n'] := .cons (Writes.short (by decide)) .nil
  have hwritten : Each Writes ['a', '\\', 'u', '\x7b', '0', '3', '0', '1', '\x7d', '\\', 'n']
      ['a', '\u0301', '\n'] :=
    .cons (Writes.itself (by decide) (by decide)) (.cons (Writes.number hnumber) hlast)
  rw [← hchars] at hwritten
  have hread := (string_literals_round_trip "a\u0301\n").1 _ hwritten
  have htext : String.ofList (quoted ['a', '\\', 'u', '\x7b', '0', '3', '0', '1', '\x7d', '\\',
      'n']) = "\"a\\u\x7b0301\x7d\\n\"" := by decide +kernel
  have hsize : "\"a\\u\x7b0301\x7d\\n\"".utf8ByteSize = 13 := by decide +kernel
  dsimp only at hread
  rw [htext, hsize] at hread
  exact ⟨hwritten, hread⟩

/-! ### Tokens of literals -/

variable {c : Char} {n : Nat} {cls : LexClass} {rest : List Char} {s : String}

/-- Only a string literal is read as a string. -/
theorem quoted_of_scan (hscan : LexClass.scan c rest = some (cls, n))
    (hread : cls.read? (c :: rest.take n) = some (.str s)) :
    ∃ inner, c :: rest.take n = quoted inner ∧ Inside inner ∧ Denotes inner s.toList := by
  cases LexClass.found_of_scan hscan with
  | str hc hclosed =>
    subst hc
    obtain ⟨inner, after, rfl, hinner, rfl⟩ := LexClass.stringTail_eq_iff.1 hclosed
    have htake : (inner ++ '"' :: after).take (inner.length + 1) = inner ++ ['"'] := by
      rw [List.append_cons]
      exact List.take_left' (by simp)
    rw [htake, ← quoted, LexClass.read?_quoted] at hread
    obtain ⟨chars, hchars, hstr⟩ := Option.map_eq_some_iff.1 hread
    cases hstr
    rw [htake, String.toList_ofList]
    exact ⟨inner, rfl, hinner, LexClass.unescape?_eq_some_iff.1 hchars⟩
  -- no other class gives a string
  | word _ hword =>
    simp only [LexClass.wordTail] at hword
    split at hword
    · cases hword
      cases hread
    · cases hword
      exact absurd (Option.some.inj hread) (readWord_ne (by simp) (by simp) _)
  | mark hmark =>
    cases hread
    unfold LexClass.mark? at hmark
    split at hmark <;> cases hmark
  | blank | comment | special => cases hread
  | int | float =>
    obtain ⟨x, -, hx⟩ := Option.map_eq_some_iff.1 hread
    cases hx

theorem quoted_of_mem_ofChars (offset : Nat) (text : List Char) {t : Lexeme}
    (ht : t ∈ (Scan.ofChars offset text).lexemes) (hs : t.token = .str s) :
    ∃ inner, t.text = String.ofList (quoted inner) ∧ Inside inner ∧ Denotes inner s.toList := by
  fun_induction Scan.ofChars offset text with
  | case1 | case2 | case4 => cases ht
  | case3 offset c rest n lexeme length hscan ih => exact ih ht
  | case5 offset c rest cls n hscan lexeme length hcls token hread ih =>
    rcases List.mem_cons.1 ht with rfl | ht
    · obtain rfl : token = .str s := hs
      obtain ⟨inner, htext, hinner, hchars⟩ := quoted_of_scan hscan hread
      exact ⟨inner, congrArg String.ofList htext, hinner, hchars⟩
    · exact ih ht

/-! ### Literals within a source -/

/-- A literal is cut as if it stood alone, but not if it stands in a comment. -/
theorem ofChars_append_quoted {before : String} {lexemes : List Lexeme}
    (hbefore : lex? before = .ok lexemes) (hcomment : ∀ t ∈ lexemes.getLast?, t.token ≠ .comment)
    (inner after : List Char) :
    Scan.ofChars 0 (before.toList ++ (quoted inner ++ after)) =
      Scan.append ⟨lexemes, none⟩ (Scan.ofChars before.utf8ByteSize (quoted inner ++ after)) := by
  have hscan := lex?_eq_ok_iff.1 hbefore
  have hcut := Scan.ofChars_boundary .quote 0 before.toList (inner ++ ['"'] ++ after)
    (by rw [hscan]) (.inr (by rwa [hscan]))
  rwa [hscan, Nat.zero_add, byteLength_toList] at hcut

/-- String tokens come from literals whose insides denote their strings, in the declared form if no
escape is lenient.  A literal behind other lexemes is the token of the string that its inside
denotes.  If it denotes none, there is a bad escape, and the lexer fails at the literal. -/
theorem unicode_escapes_are_checked (source : String) :
    (∀ lexemes t s, lex? source = .ok lexemes → t ∈ lexemes → t.token = .str s →
      ∃ inner, t.text = String.ofList (quoted inner) ∧ Inside inner ∧ Denotes inner s.toList ∧
        (Each (Stands IsNumberOf) inner s.toList ↔ ¬ HasLenientEscape inner)) ∧
    ∀ before lexemes inner after, lex? before = .ok lexemes →
      (∀ t ∈ lexemes.getLast?, t.token ≠ .comment) → Inside inner →
      let literal := String.ofList (quoted inner)
      let span : Span := ⟨before.utf8ByteSize, literal.utf8ByteSize⟩
      source = before ++ (literal ++ after) →
      (∀ s : String, Denotes inner s.toList →
        ⟨.str s, span, literal⟩ ∈ (Scan.ofChars 0 source.toList).lexemes) ∧
      (HasBadEscape inner → lex? source = .error ⟨span, literal⟩) ∧
      (HasBadEscape inner ↔ ∀ chars, ¬ Denotes inner chars) := by
  refine ⟨fun lexemes t s hlex ht hs => ?_, fun before lexemes inner after hbefore hcomment => ?_⟩
  · rw [lex?_eq_ok_iff] at hlex
    obtain ⟨inner, htext, hinner, hchars⟩ :=
      quoted_of_mem_ofChars 0 source.toList (by rwa [hlex]) hs
    exact ⟨inner, htext, hinner, hchars, LexClass.each_isNumberOf_iff hchars⟩
  · intro hinner literal span hsource
    have hlist : source.toList = before.toList ++ (quoted inner ++ after.toList) := by
      rw [hsource, String.toList_append, String.toList_append, String.toList_ofList]
    have hsize : literal.utf8ByteSize = byteLength (quoted inner) := utf8ByteSize_ofList _
    -- the literal is scanned alone, as what stands before it ends before it
    have hcut := ofChars_append_quoted hbefore hcomment inner after.toList
    rw [← hlist] at hcut
    refine ⟨fun s hchars => ?_, fun hbad => ?_, LexClass.hasBadEscape_iff hinner⟩
    · rw [ofChars_quoted hinner hchars, String.ofList_toList, ← hsize] at hcut
      rw [hcut]
      exact List.mem_append_right _ List.mem_cons_self
    · have hnone := (LexClass.hasBadEscape_iff hinner).1 hbad
      rw [ofChars_quoted_of_none hinner hnone, ← hsize] at hcut
      rw [lex?, hcut]
      rfl

/-- A number is accepted between blanks, after a plus sign, and without its closing brace. -/
theorem lenient_escapes_are_accepted :
    lex? "\"\\u\x7b 41 \x7d\"" = .ok [⟨.str "A", ⟨0, 10⟩, "\"\\u\x7b 41 \x7d\""⟩] ∧
      lex? "\"\\u\x7b+41\x7d\"" = .ok [⟨.str "A", ⟨0, 9⟩, "\"\\u\x7b+41\x7d\""⟩] ∧
      lex? "\"\\u\x7b41\"" = .ok [⟨.str "A", ⟨0, 7⟩, "\"\\u\x7b41\""⟩] :=
  ⟨lex?_eq_ok_iff.2 (by decide +kernel), lex?_eq_ok_iff.2 (by decide +kernel),
    lex?_eq_ok_iff.2 (by decide +kernel)⟩

/-- A number without its closing brace, and the number of a surrogate behind a name. -/
theorem surrogate_escape_is_rejected :
    (∃ inner, "\"\\u\x7b41\"" = String.ofList (quoted inner) ∧ Inside inner ∧
      Denotes inner "A".toList) ∧
    HasBadEscape "\\u\x7bd800\x7d".toList ∧
    lex? "x \"\\u\x7bd800\x7d\" \"y\"" = .error ⟨⟨2, 10⟩, "\"\\u\x7bd800\x7d\""⟩ := by
  have hstring : lex? "\"\\u\x7b41\"" = .ok [⟨.str "A", ⟨0, 7⟩, "\"\\u\x7b41\""⟩] :=
    lex?_eq_ok_iff.2 (by decide +kernel)
  obtain ⟨inner, htext, hdenotes, hchars, -⟩ := (unicode_escapes_are_checked "\"\\u\x7b41\"").1 _ _
    "A" hstring (List.mem_singleton_self _) rfl
  refine ⟨⟨inner, htext, hdenotes, hchars⟩, ?_⟩
  have hname : lex? "x " = .ok [⟨.ident "x", ⟨0, 1⟩, "x"⟩] := lex?_eq_ok_iff.2 (by decide +kernel)
  have hlist : "\\u\x7bd800\x7d".toList = ['\\', 'u', '\x7b', 'd', '8', '0', '0', '\x7d'] := by
    decide +kernel
  have hinner : Inside "\\u\x7bd800\x7d".toList := by
    rw [hlist]
    exact .escaped (by decide) (LexClass.inside_of_forall (by simp))
  have hliteral : String.ofList (quoted "\\u\x7bd800\x7d".toList) = "\"\\u\x7bd800\x7d\"" := by
    decide +kernel
  have hsource : "x \"\\u\x7bd800\x7d\" \"y\"" =
      "x " ++ (String.ofList (quoted "\\u\x7bd800\x7d".toList) ++ " \"y\"") := by
    decide +kernel
  have hsizes : "x ".utf8ByteSize = 2 ∧ "\"\\u\x7bd800\x7d\"".utf8ByteSize = 10 := by
    decide +kernel
  obtain ⟨-, hrejected, hbad⟩ := (unicode_escapes_are_checked "x \"\\u\x7bd800\x7d\" \"y\"").2
    "x " _ _ " \"y\"" hname (by simp) hinner hsource
  -- such an escape is one that cannot be read
  have hescape : HasBadEscape "\\u\x7bd800\x7d".toList := by
    refine hbad.2 fun chars hchars => ?_
    have hunread : LexClass.unescape? "\\u\x7bd800\x7d".toList = none := by decide +kernel
    rw [LexClass.unescape?_eq_some_iff.2 hchars] at hunread
    cases hunread
  have hfailure := hrejected hescape
  rw [hliteral, hsizes.1, hsizes.2] at hfailure
  exact ⟨hescape, hfailure⟩

end PipeLang
