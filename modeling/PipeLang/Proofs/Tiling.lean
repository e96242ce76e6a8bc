import PipeLang.Proofs.CutOff
import PipeLang.Proofs.Joining
import PipeLang.Proofs.Lexemes

/-!
# Lexemes tile the source

The lexemes of a source text follow each other without overlapping, every one is the stretch of the
text where its span says, and only blanks stand between them (`IsTiledBy`).  A failure of the lexer
is such a stretch as well, and nothing that was found before it depends on it: the text cut off
there has the same lexemes and no failure (`lexemes_tile_source`).

The scan adds one stretch after the other, so `Tiles` follows its recursion, and each fact about
spans is an induction on it.  That the lexemes before a failure stay the longest ones when the text
is cut off is `LexClass.scan_of_append`; a name that needs the colon after it keeps the colon, as
a colon is never the start of a failure.
-/

namespace PipeLang

/-- The text stands in the source where the span says. -/
def Span.Cuts (s : Span) (source text : String) : Prop :=
  ∃ before after : String, source = before ++ text ++ after ∧
    before.utf8ByteSize = s.offset ∧ text.utf8ByteSize = s.len

/-- The byte of a space, a tab or a carriage return. -/
def IsBlankByte (b : UInt8) : Prop := b = 0x20 ∨ b = 0x09 ∨ b = 0x0d

/-- A text of blanks. -/
def IsBlankText (text : String) : Prop := ∀ c ∈ text.toList, LexClass.isBlank c = true

/-- The text, which begins at byte `offset` of the source, consists of blanks and of the texts of
these lexemes in their order, each with the span of the place where it stands. -/
inductive Tiles : Nat → List Char → List Lexeme → Prop
  | nil (offset : Nat) : Tiles offset [] []
  | blanks {offset : Nat} {gap rest : List Char} {ts : List Lexeme}
      (hgap : ∀ c ∈ gap, LexClass.isBlank c = true)
      (h : Tiles (offset + byteLength gap) rest ts) : Tiles offset (gap ++ rest) ts
  | lexeme {offset : Nat} {text rest : List Char} {ts : List Lexeme} (token : Token)
      (hne : text ≠ []) (h : Tiles (offset + byteLength text) rest ts) :
      Tiles offset (text ++ rest) (⟨token, ⟨offset, byteLength text⟩, String.ofList text⟩ :: ts)

variable {offset : Nat} {text : List Char} {ts : List Lexeme}

/-! ### What a tiling says about the spans -/

/-- Every character has at least one byte. -/
theorem byteLength_pos (h : text ≠ []) : 0 < byteLength text := by
  cases text with
  | nil => exact absurd rfl h
  | cons c rest =>
    have hc := c.utf8Size_pos
    rw [byteLength_cons]
    omega

namespace Tiles

/-- Lexemes of a tiling start where it starts or later. -/
theorem offset_le (h : Tiles offset text ts) : ∀ t ∈ ts, offset ≤ t.span.offset := by
  induction h with
  | nil => simp
  | blanks _ _ ih =>
    intro t ht
    have := ih t ht
    omega
  | lexeme token _ _ ih =>
    intro t ht
    rcases List.mem_cons.1 ht with rfl | ht
    · exact Nat.le_refl _
    · have := ih t ht
      omega

/-- Earlier lexemes end where later ones begin, or before. -/
theorem pairwise (h : Tiles offset text ts) :
    ts.Pairwise fun t u => t.span.offset < u.span.offset ∧ t.span.stop ≤ u.span.offset := by
  induction h with
  | nil => exact .nil
  | blanks _ _ ih => exact ih
  | @lexeme offset text _ _ token hne h ih =>
    refine List.pairwise_cons.2 ⟨fun u hu => ?_, ih⟩
    have hafter := h.offset_le u hu
    have hlength := byteLength_pos hne
    simp only [Span.stop]
    omega

/-- Each lexeme stands where its span says. -/
theorem exists_split (h : Tiles offset text ts) : ∀ t ∈ ts, 0 < t.span.len ∧
    ∃ before after, text = before ++ t.text.toList ++ after ∧
      offset + byteLength before = t.span.offset ∧ byteLength t.text.toList = t.span.len := by
  induction h with
  | nil => simp
  | @blanks offset gap rest ts hgap h ih =>
    intro t ht
    obtain ⟨hlen, before, after, rfl, hoffset, hlength⟩ := ih t ht
    refine ⟨hlen, gap ++ before, after, by simp only [List.append_assoc], ?_, hlength⟩
    rw [byteLength_append]
    omega
  | @lexeme offset text rest ts token hne h ih =>
    intro t ht
    rcases List.mem_cons.1 ht with rfl | ht
    · exact ⟨byteLength_pos hne, [], rest, by rw [String.toList_ofList]; rfl, rfl,
        by rw [String.toList_ofList]⟩
    · obtain ⟨hlen, before, after, rfl, hoffset, hlength⟩ := ih t ht
      refine ⟨hlen, text ++ before, after, by simp only [List.append_assoc], ?_, hlength⟩
      rw [byteLength_append]
      omega

/-! ### What stands outside of the spans -/

/-- The bytes of a text. -/
def bytes (text : List Char) : List UInt8 := text.flatMap String.utf8EncodeChar

theorem length_bytes (text : List Char) : (bytes text).length = byteLength text := by
  induction text with
  | nil => rfl
  | cons c rest ih =>
    rw [bytes] at ih ⊢
    rw [List.flatMap_cons, List.length_append, ih, String.length_utf8EncodeChar, byteLength_cons]

theorem bytes_append (a b : List Char) : bytes (a ++ b) = bytes a ++ bytes b :=
  List.flatMap_append

/-- Blanks are characters of one byte. -/
theorem isBlankByte_of_mem {b : UInt8} (htext : ∀ c ∈ text, LexClass.isBlank c = true)
    (hb : b ∈ bytes text) : IsBlankByte b := by
  obtain ⟨c, hc, hb⟩ := List.mem_flatMap.1 hb
  have hblank := htext c hc
  simp only [LexClass.isBlank, Bool.or_eq_true, beq_iff_eq] at hblank
  rcases hblank with (rfl | rfl) | rfl
  · exact .inl (List.mem_singleton.1 hb)
  · exact .inr (.inl (List.mem_singleton.1 hb))
  · exact .inr (.inr (List.mem_singleton.1 hb))

/-- A byte outside of the spans of all lexemes is that of a blank. -/
theorem isBlankByte {i : Nat} {b : UInt8} (h : Tiles offset text ts)
    (hb : (bytes text)[i]? = some b)
    (hout : ∀ t ∈ ts, ¬ (t.span.offset ≤ offset + i ∧ offset + i < t.span.stop)) :
    IsBlankByte b := by
  induction h generalizing i with
  | nil => cases hb
  | @blanks offset gap rest ts hgap h ih =>
    have hlength := length_bytes gap
    rw [bytes_append] at hb
    -- hi | the byte is in the gap, or beyond it
    rcases Nat.lt_or_ge i (byteLength gap) with hi | hi
    · rw [List.getElem?_append_left (by omega)] at hb
      exact isBlankByte_of_mem hgap (List.mem_of_getElem? hb)
    · rw [List.getElem?_append_right (by omega), hlength] at hb
      refine ih hb fun t ht => ?_
      have := hout t ht
      omega
  | @lexeme offset text rest ts token hne h ih =>
    have hlength := length_bytes text
    rw [bytes_append] at hb
    -- it is not in the lexeme, and so beyond it
    obtain ⟨hself, hout⟩ := List.forall_mem_cons.1 hout
    simp only [Span.stop] at hself
    rw [List.getElem?_append_right (by omega), hlength] at hb
    refine ih hb fun t ht => ?_
    have := hout t ht
    omega

/-- The text is rebuilt from its lexemes and the blanks before and after them. -/
theorem exists_gaps (h : Tiles offset text ts) : ∃ (gaps : List String) (last : String),
    gaps.length = ts.length ∧ (∀ gap ∈ last :: gaps, IsBlankText gap) ∧ String.ofList text =
      String.join (List.zipWith (fun gap t => gap ++ t.text) gaps ts) ++ last := by
  induction h with
  | nil => exact ⟨[], "", rfl, by simp [IsBlankText], rfl⟩
  | @blanks offset gap rest ts hgap h ih =>
    obtain ⟨gaps, last, hlength, hblank, hjoin⟩ := ih
    have hmore : ∀ more, IsBlankText more → IsBlankText (String.ofList gap ++ more) := by
      intro more hmore c hc
      rw [String.toList_append, String.toList_ofList] at hc
      exact (List.mem_append.1 hc).elim (hgap c) (hmore c)
    obtain ⟨hlast, hgaps⟩ := List.forall_mem_cons.1 hblank
    -- the blanks go to the gap before the first lexeme, or to the end if there is none
    cases gaps with
    | nil =>
      obtain rfl := List.length_eq_zero_iff.1 hlength.symm
      refine ⟨[], String.ofList gap ++ last, rfl, by simpa using hmore last hlast, ?_⟩
      rw [String.ofList_append, hjoin]
      simp
    | cons first gaps =>
      obtain ⟨hfirst, hgaps⟩ := List.forall_mem_cons.1 hgaps
      have hblank' := List.forall_mem_cons.2 ⟨hmore first hfirst, hgaps⟩
      refine ⟨(String.ofList gap ++ first) :: gaps, last, hlength,
        List.forall_mem_cons.2 ⟨hlast, hblank'⟩, ?_⟩
      cases ts with
      | nil => cases hlength
      | cons t ts =>
        rw [String.ofList_append, hjoin]
        simp [String.append_assoc]
  | @lexeme offset text rest ts token hne h ih =>
    obtain ⟨gaps, last, hlength, hblank, hjoin⟩ := ih
    refine ⟨"" :: gaps, last, by simp [hlength], by simpa [IsBlankText] using hblank, ?_⟩
    simp [hjoin, String.ofList_append, String.append_assoc]

end Tiles

/-! ### What the lexer cuts -/

section

variable {c : Char} {n : Nat} {cls : LexClass} {rest : List Char}

theorem isBlank_of_scan (h : LexClass.scan c rest = some (.blank, n)) :
    ∀ x ∈ c :: rest.take n, LexClass.isBlank x = true := by
  cases LexClass.found_of_scan h with
  | blank hc => exact List.forall_mem_cons.2 ⟨hc, fun x hx => of_mem_take_run hx⟩
  | word _ hword =>
    simp only [LexClass.wordTail] at hword
    split at hword <;> cases hword

/-- A name that is read as one before a colon stands before a colon. -/
theorem head?_of_scan_label (h : LexClass.scan c rest = some (.label, n)) :
    (rest.drop n).head? = some ':' := by
  cases LexClass.found_of_scan h with
  | word _ hword =>
    simp only [LexClass.wordTail] at hword
    split at hword
    · next hdrop =>
      cases hword
      rw [hdrop]
      rfl
    · cases hword

/-- Blanks are cut off without a lexeme. -/
theorem ofChars_cons_blank (offset : Nat) {gap : List Char}
    (hscan : LexClass.scan c (gap ++ rest) = some (.blank, n)) (hn : gap.length = n) :
    Scan.ofChars offset (c :: (gap ++ rest)) =
      Scan.ofChars (offset + byteLength (c :: gap)) rest := by
  subst hn
  rw [Scan.ofChars, hscan]
  simp only [if_true, List.take_left, List.drop_left]

/-- A lexeme is cut off, and the rest is scanned from where it ends. -/
theorem ofChars_cons_lexeme (offset : Nat) {tail : List Char} {token : Token}
    (hscan : LexClass.scan c (tail ++ rest) = some (cls, n)) (hn : tail.length = n)
    (hcls : cls ≠ .blank) (hread : cls.read? (c :: tail) = some token) :
    Scan.ofChars offset (c :: (tail ++ rest)) =
      (Scan.ofChars (offset + byteLength (c :: tail)) rest).cons
        ⟨token, ⟨offset, byteLength (c :: tail)⟩, String.ofList (c :: tail)⟩ := by
  subst hn
  rw [Scan.ofChars, hscan]
  simp only [if_neg hcls, List.take_left, List.drop_left]
  rw [hread]

end

/-- A text without failures is tiled by its lexemes. -/
theorem tiles_ofChars (offset : Nat) (text : List Char)
    (h : (Scan.ofChars offset text).failure = none) :
    Tiles offset text (Scan.ofChars offset text).lexemes := by
  fun_induction Scan.ofChars offset text with
  | case1 offset => exact .nil offset
  | case2 => cases h
  | case3 offset c rest n lexeme length hscan ih =>
    have htiles := Tiles.blanks (isBlank_of_scan hscan) (ih h)
    rwa [List.cons_append, List.take_append_drop] at htiles
  | case4 => cases h
  | case5 offset c rest cls n hscan lexeme length hcls token hread ih =>
    have htiles := Tiles.lexeme token (List.cons_ne_nil c (rest.take n)) (ih h)
    rwa [List.cons_append, List.take_append_drop] at htiles

/-- A failure is a stretch of the text.  The text before it is cut into the lexemes that were found
before the failure. -/
theorem exists_of_failure (offset : Nat) (text : List Char) {e : LexError}
    (h : (Scan.ofChars offset text).failure = some e) : ∃ before stretch after,
      text = before ++ stretch ++ after ∧ stretch ≠ [] ∧
      e = ⟨⟨offset + byteLength before, byteLength stretch⟩, String.ofList stretch⟩ ∧
      Scan.ofChars offset before = ⟨(Scan.ofChars offset text).lexemes, none⟩ ∧
      (text.head? = some ':' → before ≠ []) := by
  fun_induction Scan.ofChars offset text with
  | case1 => cases h
  | case2 offset c rest hscan stretch =>
    obtain rfl := Option.some.inj h
    refine ⟨[], stretch, rest.drop (LexClass.unscanned c rest), ?_, List.cons_ne_nil _ _, rfl,
      ?_, ?_⟩
    · rw [List.nil_append, List.cons_append, List.take_append_drop]
    · rw [Scan.ofChars]
    · intro hcolon
      obtain rfl := Option.some.inj hcolon
      cases hscan
  | case3 offset c rest n lexeme length hscan ih =>
    obtain ⟨before, stretch, after, hrest, hne, he, hbefore, -⟩ := ih h
    have hlength : (rest.take n).length = n := List.length_take_of_le (LexClass.scan_le hscan)
    have htext : rest.take n ++ before ++ (stretch ++ after) = rest := by
      rw [List.append_assoc, ← List.append_assoc before, ← hrest, List.take_append_drop]
    rw [← htext] at hscan
    have hcut := LexClass.scan_of_append hscan (by rw [List.length_append]; omega) (by simp)
    refine ⟨c :: (rest.take n ++ before), stretch, after, ?_, hne, ?_, ?_, by simp⟩
    · rw [List.append_assoc, List.cons_append, htext]
    · rw [he]
      simp only [length, lexeme, byteLength_cons, byteLength_append, Nat.add_assoc]
    · rw [ofChars_cons_blank offset hcut hlength]
      exact hbefore
  | case4 offset c rest cls n hscan lexeme length hcls hread =>
    obtain rfl := Option.some.inj h
    refine ⟨[], lexeme, rest.drop n, ?_, List.cons_ne_nil _ _, rfl, ?_, ?_⟩
    · rw [List.nil_append, List.cons_append, List.take_append_drop]
    · rw [Scan.ofChars]
    -- a colon is a mark, so that a text which starts with one does not fail at once
    · intro hcolon
      obtain rfl := Option.some.inj hcolon
      cases hscan
      cases hread
  | case5 offset c rest cls n hscan lexeme length hcls token hread ih =>
    obtain ⟨before, stretch, after, hrest, hne, he, hbefore, hcolon⟩ := ih h
    have hlength : (rest.take n).length = n := List.length_take_of_le (LexClass.scan_le hscan)
    have htext : rest.take n ++ before ++ (stretch ++ after) = rest := by
      rw [List.append_assoc, ← List.append_assoc before, ← hrest, List.take_append_drop]
    have hlabel : cls = .label → n < (rest.take n ++ before).length := by
      rintro rfl
      have hpos := List.length_pos_iff.2 (hcolon (head?_of_scan_label hscan))
      rw [List.length_append]
      omega
    rw [← htext] at hscan
    have hcut := LexClass.scan_of_append hscan (by rw [List.length_append]; omega) hlabel
    refine ⟨c :: (rest.take n ++ before), stretch, after, ?_, hne, ?_, ?_, by simp⟩
    · rw [List.append_assoc, List.cons_append, htext]
    · rw [he]
      simp only [length, lexeme, byteLength_cons, byteLength_append, Nat.add_assoc]
    · rw [ofChars_cons_lexeme offset hcut hlength hcls hread]
      exact congrArg (Scan.cons _) hbefore

/-! ### The source -/

theorem eq_append_of_toList {source : String} {before stretch after : List Char}
    (h : source.toList = before ++ stretch ++ after) :
    source = String.ofList before ++ String.ofList stretch ++ String.ofList after := by
  rw [← String.ofList_append, ← String.ofList_append, ← h, String.ofList_toList]

theorem cuts_of_toList {source : String} {s : Span} {before stretch after : List Char}
    (h : source.toList = before ++ stretch ++ after) (hoffset : byteLength before = s.offset)
    (hlen : byteLength stretch = s.len) : s.Cuts source (String.ofList stretch) := by
  refine ⟨String.ofList before, String.ofList after, eq_append_of_toList h, ?_, ?_⟩
  · rw [utf8ByteSize_ofList, hoffset]
  · rw [utf8ByteSize_ofList, hlen]

theorem toUTF8_eq (source : String) :
    source.toUTF8 = (Tiles.bytes source.toList).toByteArray := by
  have htext := String.toByteArray_ofList (l := source.toList)
  rwa [String.ofList_toList] at htext

/-- The lexemes of a source text. -/
theorem tiles_of_lex? {source : String} {lexemes : List Lexeme} (h : lex? source = .ok lexemes) :
    Tiles 0 source.toList lexemes := by
  have hscan := lex?_eq_ok_iff.1 h
  have htiles := tiles_ofChars 0 source.toList (by rw [hscan])
  rwa [hscan] at htiles

/-- The lexemes cover the source up to blanks, one after the other. -/
structure IsTiledBy (source : String) (lexemes : List Lexeme) : Prop where
  /-- Every lexeme is a stretch of the source that is not empty, where its span says. -/
  cuts : ∀ t ∈ lexemes, 0 < t.span.len ∧ t.span.Cuts source t.text
  /-- They follow each other and do not overlap. -/
  ordered : lexemes.Pairwise fun t u =>
    t.span.offset < u.span.offset ∧ t.span.stop ≤ u.span.offset
  /-- A byte outside of them all is that of a blank. -/
  blank : ∀ (i : Nat) (hi : i < source.toUTF8.size),
    (∀ t ∈ lexemes, ¬ (t.span.offset ≤ i ∧ i < t.span.stop)) → IsBlankByte source.toUTF8[i]
  /-- The source consists of their texts and the blanks between them. -/
  rebuilt : ∃ (gaps : List String) (last : String), gaps.length = lexemes.length ∧
    (∀ gap ∈ last :: gaps, IsBlankText gap) ∧
      source = String.join (List.zipWith (fun gap t => gap ++ t.text) gaps lexemes) ++ last

/-- What the lexer gives is a tiling of the source. -/
theorem isTiledBy_of_lex? {source : String} {lexemes : List Lexeme}
    (h : lex? source = .ok lexemes) : IsTiledBy source lexemes := by
  have htiles := tiles_of_lex? h
  refine ⟨fun t ht => ?_, htiles.pairwise, fun i hi hout => ?_, ?_⟩
  · obtain ⟨hpos, before, after, htext, hoffset, hlen⟩ := htiles.exists_split t ht
    rw [Nat.zero_add] at hoffset
    have hcuts := cuts_of_toList htext hoffset hlen
    rw [String.ofList_toList] at hcuts
    exact ⟨hpos, hcuts⟩
  · have hbyte : (Tiles.bytes source.toList)[i]? = some source.toUTF8[i] := by
      simp only [toUTF8_eq] at hi ⊢
      rw [List.getElem_toByteArray]
      exact List.getElem?_eq_getElem _
    apply htiles.isBlankByte hbyte
    simpa only [Nat.zero_add] using hout
  · obtain ⟨gaps, last, hlength, hblank, hjoin⟩ := htiles.exists_gaps
    rw [String.ofList_toList] at hjoin
    exact ⟨gaps, last, hlength, hblank, hjoin⟩

/-- A source text that is cut into lexemes is tiled by them.  If the lexer fails, then at a stretch
of the source that is not empty, and the source cut off there has the lexemes that were found
before. -/
theorem lexemes_tile_source (source : String) :
    (∀ lexemes, lex? source = .ok lexemes → IsTiledBy source lexemes) ∧
    ∀ e, lex? source = .error e → e.text ≠ "" ∧ e.span.Cuts source e.text ∧
      ∃ before after, source = before ++ after ∧ before.utf8ByteSize = e.span.offset ∧
        lex? before = .ok (Scan.ofChars 0 source.toList).lexemes := by
  refine ⟨fun lexemes h => isTiledBy_of_lex? h, fun e h => ?_⟩
  unfold lex? Scan.result at h
  split at h
  · cases h
  · next failure hfailure =>
    cases h
    obtain ⟨before, stretch, after, htext, hne, rfl, hbefore, -⟩ :=
      -- the text before a failure is scanned in the same way when it stands alone
      exists_of_failure 0 source.toList hfailure
    refine ⟨?_, cuts_of_toList htext (Nat.zero_add _).symm rfl, String.ofList before,
      String.ofList (stretch ++ after), ?_, ?_, ?_⟩
    · intro hempty
      rw [String.ofList_eq_empty_iff] at hempty
      exact hne hempty
    · rw [eq_append_of_toList htext, String.ofList_append, String.append_assoc]
    · rw [utf8ByteSize_ofList, Nat.zero_add]
    · rw [lex?, String.toList_ofList, hbefore]
      rfl

/-- A comment with a character of two bytes, and a number without a digit after a name that is one
only before its colon. -/
theorem comment_and_bad_number_tile :
    IsTiledBy "x # é" [⟨.ident "x", ⟨0, 1⟩, "x"⟩, ⟨.comment, ⟨2, 4⟩, "# é"⟩] ∧
    ∃ before after, "if::0b_ x" = before ++ after ∧ before.utf8ByteSize = 4 ∧ lex? before =
      .ok [⟨.ident "if", ⟨0, 2⟩, "if"⟩, ⟨.colon, ⟨2, 1⟩, ":"⟩, ⟨.colon, ⟨3, 1⟩, ":"⟩] := by
  have hcomment : Scan.ofChars 0 "x # é".toList =
      ⟨[⟨.ident "x", ⟨0, 1⟩, "x"⟩, ⟨.comment, ⟨2, 4⟩, "# é"⟩], none⟩ := by decide +kernel
  have hnumber : Scan.ofChars 0 "if::0b_ x".toList =
      ⟨[⟨.ident "if", ⟨0, 2⟩, "if"⟩, ⟨.colon, ⟨2, 1⟩, ":"⟩, ⟨.colon, ⟨3, 1⟩, ":"⟩],
        some ⟨⟨4, 3⟩, "0b_"⟩⟩ := by decide +kernel
  refine ⟨(lexemes_tile_source "x # é").1 _ (by rw [lex?, hcomment]; rfl), ?_⟩
  have hcut := (lexemes_tile_source "if::0b_ x").2 ⟨⟨4, 3⟩, "0b_"⟩ (by rw [lex?, hnumber]; rfl)
  rw [hnumber] at hcut
  exact hcut.2.2

end PipeLang
