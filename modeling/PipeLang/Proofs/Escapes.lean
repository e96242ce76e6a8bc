import PipeLang.Proofs.Literals
import PipeLang.Text.Quoted

/-!
# Insides of strings

Two readers go over the inside of a string literal, and each takes a language of its own.
`stringTail` looks for the closing quote; it only asks that no quote stands alone and that a
backslash takes a character along that is no line break (`Inside`, `stringTail_eq_iff`).
`unescape?` reads the characters (`Denotes`, `unescape?_eq_some_iff`): each one stands for itself,
or is named by a letter after a backslash, or by its number in braces (`Stands`).

The declared form of a number is hexadecimal digits alone (`IsNumberOf`).  The reader is more
lenient: a number may stand between blanks and after a plus sign (`Numbers`), and the last one may
lack its brace.  What it reads beyond the declared form has such an escape (`each_isNumberOf_iff`),
and what it does not read has an escape that leads to no number (`hasBadEscape_iff`).

What a printer may write for a character (`Writes`) is understood by both readers, and `escapeChar`
writes no more than that (`writes_escapeChar`).
-/

namespace PipeLang.LexClass

/-! ### The number of a character -/

/-- A hexadecimal digit. -/
def isHexDigit (c : Char) : Bool := continuesBase 16 c && c != '_'

/-- The number of the character in hexadecimal digits, with leading zeros or none. -/
structure IsNumberOf (digits : List Char) (c : Char) : Prop where
  ne_nil : digits ≠ []
  hex : ∀ x ∈ digits, isHexDigit x = true
  value : positionalValue 16 digits = c.toNat

/-- The number of the character, with blanks around it or none, and with a plus sign or none. -/
def Numbers (text : List Char) (c : Char) : Prop :=
  ∃ before sign digits after, text = before ++ (sign ++ digits) ++ after ∧
    (∀ x ∈ before, isSpace x = true) ∧ (∀ x ∈ after, isSpace x = true) ∧
    (sign = [] ∨ sign = ['+']) ∧ IsNumberOf digits c

variable {c : Char} {n : Nat} {text digits inner piece rest chars : List Char}

theorem facts_of_isHexDigit (h : isHexDigit c = true) :
    isSpace c = false ∧ c ≠ '"' ∧ c ≠ '\\' := by
  have hne : ∀ d, isHexDigit d = false → c ≠ d := by
    rintro d hd rfl
    rw [h] at hd
    cases hd
  refine ⟨?_, hne _ (by decide), hne _ (by decide)⟩
  -- all digits lie between 0 and f, and there is no blank there
  have hrange : 0x30 ≤ c.toNat ∧ c.toNat ≤ 0x66 := by
    rw [isHexDigit, continuesBase, if_neg (by decide), if_neg (by decide)] at h
    simp only [Char.isDigit, Bool.and_eq_true, Bool.or_eq_true, decide_eq_true_eq, beq_iff_eq,
      bne_iff_ne, Char.le_def, UInt32.le_iff_toNat_le, ge_iff_le] at h
    obtain ⟨((h | h) | h) | rfl, hscore⟩ := h
    · exact ⟨h.1, Nat.le_trans h.2 (by decide)⟩
    · exact ⟨Nat.le_trans (by decide) h.1, h.2⟩
    · exact ⟨Nat.le_trans (by decide) h.1, Nat.le_trans h.2 (by decide)⟩
    · exact absurd rfl hscore
  simp only [isSpace, decide_eq_false_iff_not, Bool.or_eq_true, Bool.and_eq_true,
    decide_eq_true_eq]
  omega

/-- Trimming takes blanks off at either end. -/
theorem exists_append_trim (text : List Char) : ∃ before after,
    text = before ++ trim text ++ after ∧ (∀ x ∈ before, isSpace x = true) ∧
      ∀ x ∈ after, isSpace x = true := by
  have hleft := List.takeWhile_append_dropWhile (p := isSpace) (l := text)
  have hright := List.takeWhile_append_dropWhile (p := isSpace)
    (l := (text.dropWhile isSpace).reverse)
  refine ⟨text.takeWhile isSpace, ((text.dropWhile isSpace).reverse.takeWhile isSpace).reverse,
    ?_, fun x hx => ?_, fun x hx => ?_⟩
  · rw [trim, List.append_assoc, ← List.reverse_append, hright, List.reverse_reverse, hleft]
  · exact List.all_eq_true.1 List.all_takeWhile x hx
  · exact List.all_eq_true.1 List.all_takeWhile x (List.mem_reverse.1 hx)

theorem dropWhile_append {before core : List Char} (hbefore : ∀ x ∈ before, isSpace x = true)
    (hcore : ∀ x ∈ core.head?, isSpace x = false) :
    (before ++ core).dropWhile isSpace = core := by
  rw [List.dropWhile_append_of_pos hbefore]
  cases core with
  | nil => rfl
  | cons x core => exact List.dropWhile_cons_of_neg (by simp [hcore x rfl])

theorem trim_append {before core after : List Char} (hbefore : ∀ x ∈ before, isSpace x = true)
    (hne : core ≠ []) (hcore : ∀ x ∈ core, isSpace x = false)
    (hafter : ∀ x ∈ after, isSpace x = true) : trim (before ++ core ++ after) = core := by
  have hhead : ∀ x ∈ (core ++ after).head?, isSpace x = false := by
    intro x hx
    obtain ⟨first, others, rfl⟩ := List.exists_cons_of_ne_nil hne
    cases hx
    exact hcore _ List.mem_cons_self
  have hlast : ∀ x ∈ core.reverse.head?, isSpace x = false :=
    fun x hx => hcore x (List.mem_reverse.1 (List.mem_of_mem_head? hx))
  rw [trim, List.append_assoc, dropWhile_append hbefore hhead, List.reverse_append,
    dropWhile_append (fun x hx => hafter x (List.mem_reverse.1 hx)) hlast, List.reverse_reverse]

theorem exists_append_unsigned (text : List Char) : ∃ sign,
    text = sign ++ (if text.head? = some '+' then text.drop 1 else text) ∧
      (sign = [] ∨ sign = ['+']) := by
  split
  · next h =>
    obtain ⟨others, rfl⟩ := List.head?_eq_some_iff.1 h
    exact ⟨['+'], rfl, .inr rfl⟩
  · exact ⟨[], rfl, .inl rfl⟩

/-- The reader of numbered characters accepts the numbers of characters. -/
theorem character?_eq_some_iff : character? text = some c ↔ Numbers text c := by
  -- the number must be that of a character
  have hvalue : ∀ n, (if h : n.isValidChar then some (Char.ofNatAux n h) else none) = some c ↔
      n = c.toNat := by
    intro n
    constructor
    · intro h
      by_cases hvalid : n.isValidChar
      · rw [dif_pos hvalid] at h
        cases h
        rfl
      · rw [dif_neg hvalid] at h
        cases h
    · rintro rfl
      rw [dif_pos (show c.toNat.isValidChar from c.valid)]
      rfl
  unfold character?
  dsimp only
  constructor
  · intro h
    obtain ⟨before, after, htext, hbefore, hafter⟩ := exists_append_trim text
    obtain ⟨sign, hunsigned, hsign⟩ := exists_append_unsigned (trim text)
    generalize (if (trim text).head? = some '+' then (trim text).drop 1 else trim text) = digits
      at h hunsigned
    by_cases hdigits : digits ≠ [] ∧ digits.all (fun x => continuesBase 16 x && x != '_')
    · rw [if_pos hdigits] at h
      rw [hunsigned] at htext
      exact ⟨before, sign, digits, after, htext, hbefore, hafter, hsign, hdigits.1,
        List.all_eq_true.1 hdigits.2, (hvalue _).1 h⟩
    · rw [if_neg hdigits] at h
      cases h
  · rintro ⟨before, sign, digits, after, rfl, hbefore, hafter, hsign, hnumber⟩
    -- the number itself has no spaces, so that trimming leaves it whole
    have hcore : ∀ x ∈ sign ++ digits, isSpace x = false := by
      intro x hx
      rcases List.mem_append.1 hx with hx | hx
      · rcases hsign with rfl | rfl
        · cases hx
        · cases List.mem_singleton.1 hx
          rfl
      · exact (facts_of_isHexDigit (hnumber.hex x hx)).1
    have hne : sign ++ digits ≠ [] := List.append_ne_nil_of_right_ne_nil sign hnumber.ne_nil
    rw [trim_append hbefore hne hcore hafter]
    have hdigits : (if (sign ++ digits).head? = some '+' then (sign ++ digits).drop 1
        else sign ++ digits) = digits := by
      rcases hsign with rfl | rfl
      · refine if_neg fun hplus => ?_
        have hx := hnumber.hex '+' (List.mem_of_mem_head? hplus)
        cases hx
      · rfl
    rw [hdigits, if_pos ⟨hnumber.ne_nil, List.all_eq_true.2 hnumber.hex⟩]
    exact (hvalue _).2 hnumber.value

theorem IsNumberOf.numbers (h : IsNumberOf digits c) : Numbers digits c :=
  ⟨[], [], digits, [], by simp, by simp, by simp, .inl rfl, h⟩

/-- Only blanks, a plus sign and digits are found in a number. -/
theorem Numbers.ne_of_mem {d : Char} (h : Numbers text c)
    (hd : isSpace d = false ∧ d ≠ '+' ∧ isHexDigit d = false) : ∀ x ∈ text, x ≠ d := by
  obtain ⟨before, sign, digits, after, rfl, hbefore, hafter, hsign, hnumber⟩ := h
  obtain ⟨hspace, hplus, hhex⟩ := hd
  rintro x hx rfl
  simp only [List.mem_append] at hx
  rcases hx with (hx | hx | hx) | hx
  · simp [hbefore x hx] at hspace
  · rcases hsign with rfl | rfl
    · cases hx
    · exact hplus (List.mem_singleton.1 hx)
  · simp [hnumber.hex x hx] at hhex
  · simp [hafter x hx] at hspace

theorem Numbers.ne_brace (h : Numbers text c) : ∀ x ∈ text, x ≠ '\x7d' :=
  h.ne_of_mem (by decide)

/-- Two numbers before their closing braces. -/
theorem Numbers.eq_of_append {d : Char} {number others : List Char} (h : Numbers text c)
    (hnumber : Numbers number d) (heq : text ++ '\x7d' :: rest = number ++ '\x7d' :: others) :
    text = number ∧ c = d ∧ rest = others := by
  have hstop : ∀ text more, (∀ x ∈ text, x ≠ '\x7d') →
      (text ++ '\x7d' :: more).takeWhile (· != '\x7d') = text := by
    intro text more htext
    rw [List.takeWhile_append_of_pos fun x hx => bne_iff_ne.2 (htext x hx)]
    simp
  have htext : text = number := by
    rw [← hstop text rest h.ne_brace, heq, hstop number others hnumber.ne_brace]
  subst htext
  have hchar := (character?_eq_some_iff.2 h).symm.trans (character?_eq_some_iff.2 hnumber)
  exact ⟨rfl, Option.some.inj hchar, (List.cons.inj (List.append_cancel_left heq)).2⟩

/-! ### The characters of a string -/

/-- What a letter after a backslash stands for. -/
def unescapeLetter (c : Char) : Char :=
  if c = 'n' then '\n' else if c = 'r' then '\r' else if c = 't' then '\t'
  else if c = '0' then '\x00' else c

/-- What stands for one character inside a string, if this is how its number is written. -/
inductive Stands (numbers : List Char → Char → Prop) : List Char → Char → Prop
  | itself {c : Char} (hslash : c ≠ '\\') : Stands numbers [c] c
  | letter {x : Char} (hnumber : x ≠ 'u') : Stands numbers ['\\', x] (unescapeLetter x)
  | number {text : List Char} {c : Char} (h : numbers text c) :
      Stands numbers ('\\' :: 'u' :: '\x7b' :: (text ++ ['\x7d'])) c

/-- The text consists of something that stands for each of these characters. -/
inductive Each (stands : List Char → Char → Prop) : List Char → List Char → Prop
  | nil : Each stands [] []
  | cons {piece rest chars : List Char} {c : Char} (hpiece : stands piece c)
      (hrest : Each stands rest chars) : Each stands (piece ++ rest) (c :: chars)

/-- The inside of a string stands for these characters.  The number of the last one may lack its
closing brace. -/
inductive Denotes : List Char → List Char → Prop
  | whole {inner chars : List Char} (h : Each (Stands Numbers) inner chars) : Denotes inner chars
  | cut {inner chars text : List Char} {c : Char} (h : Each (Stands Numbers) inner chars)
      (hnumber : Numbers text c) :
      Denotes (inner ++ '\\' :: 'u' :: '\x7b' :: text) (chars ++ [c])

theorem Denotes.cons (hpiece : Stands Numbers piece c) (h : Denotes rest chars) :
    Denotes (piece ++ rest) (c :: chars) := by
  cases h with
  | whole h => exact .whole (.cons hpiece h)
  | cut h hnumber =>
    rw [← List.append_assoc]
    exact .cut (.cons hpiece h) hnumber

theorem Each.mono {stands stands' : List Char → Char → Prop}
    (hmono : ∀ {piece c}, stands piece c → stands' piece c) (h : Each stands text chars) :
    Each stands' text chars := by
  induction h with
  | nil => exact .nil
  | cons hpiece _ ih => exact .cons (hmono hpiece) ih

/-- A numbered character is read up to the brace or the end. -/
theorem unescape?_number (h : Numbers text c) (rest : List Char)
    (hrest : ∀ x ∈ rest.head?, x = '\x7d') :
    unescape? ('\\' :: 'u' :: '\x7b' :: (text ++ rest)) =
      (unescape? (rest.drop 1)).map (c :: ·) := by
  have hstop : rest.takeWhile (· != '\x7d') = [] ∧ rest.dropWhile (· != '\x7d') = rest := by
    cases rest with
    | nil => exact ⟨rfl, rfl⟩
    | cons x rest =>
      obtain rfl := hrest x rfl
      exact ⟨rfl, rfl⟩
  have hbrace : ∀ x ∈ text, (x != '\x7d') = true :=
    fun x hx => bne_iff_ne.2 (h.ne_brace x hx)
  rw [unescape?, List.takeWhile_append_of_pos hbrace, List.dropWhile_append_of_pos hbrace, hstop.1,
    hstop.2, List.append_nil, character?_eq_some_iff.2 h]

theorem Stands.unescape? (h : Stands Numbers text c) (rest : List Char) :
    unescape? (text ++ rest) = (LexClass.unescape? rest).map (c :: ·) := by
  cases h with
  | itself hslash =>
    rw [List.singleton_append, LexClass.unescape?]
    all_goals
      intros
      contradiction
  | letter hnumber =>
    rw [List.cons_append, List.singleton_append, LexClass.unescape?, if_neg hnumber]
    · rfl
    · exact fun _ h => absurd h hnumber
  | @number text c h =>
    simp only [List.cons_append, List.append_assoc, List.nil_append]
    exact unescape?_number h ('\x7d' :: rest) (by rintro x ⟨⟩; rfl)

theorem Each.unescape? (h : Each (Stands Numbers) text chars) (rest : List Char) :
    unescape? (text ++ rest) = (LexClass.unescape? rest).map (chars ++ ·) := by
  induction h with
  | nil => simp
  | cons hpiece _ ih =>
    rw [List.append_assoc, hpiece.unescape?, ih, Option.map_map]
    rfl

/-- The reader of strings accepts the insides that stand for characters. -/
theorem unescape?_eq_some_iff : unescape? text = some chars ↔ Denotes text chars := by
  constructor
  · intro h
    fun_induction LexClass.unescape? text generalizing chars with
    | case1 =>
      cases h
      exact .whole .nil
    | case2 rest c hc ih =>
      obtain ⟨others, hothers, rfl⟩ := Option.map_eq_some_iff.1 h
      have hnumber := character?_eq_some_iff.1 hc
      have hstop := List.head?_dropWhile_not (· != '\x7d') rest
      rw [← List.takeWhile_append_dropWhile (p := (· != '\x7d')) (l := rest)]
      cases hclose : rest.dropWhile (· != '\x7d') with
      -- the number reaches to the end
      | nil =>
        rw [hclose, List.drop_nil, unescape?_nil] at hothers
        cases hothers
        rw [List.append_nil]
        exact .cut .nil hnumber
      | cons brace more =>
        rw [hclose] at ih hothers hstop
        obtain rfl : brace = '\x7d' := by simpa using hstop
        have hpiece := (ih hothers).cons (.number hnumber)
        rwa [List.cons_append, List.cons_append, List.cons_append, List.append_assoc] at hpiece
    | case3 => cases h
    | case4 => cases h
    | case5 c rest hbrace hc letter =>
      rename_i ih
      obtain ⟨others, hothers, rfl⟩ := Option.map_eq_some_iff.1 h
      exact (ih hothers).cons (.letter hc)
    | case6 => cases h
    | case7 c rest hbrace hletter hend ih =>
      obtain ⟨others, hothers, rfl⟩ := Option.map_eq_some_iff.1 h
      have hslash : c ≠ '\\' := by
        rintro rfl
        cases rest with
        | nil => exact hend rfl rfl
        | cons x rest => exact hletter x rest rfl rfl
      exact (ih hothers).cons (.itself hslash)
  · rintro (h | ⟨h, hnumber⟩)
    · have hread := h.unescape? []
      rwa [List.append_nil, unescape?_nil, Option.map_some, List.append_nil] at hread
    · have hlast := unescape?_number hnumber [] (by simp)
      rw [List.append_nil, List.drop_nil, unescape?_nil] at hlast
      rw [h.unescape?, hlast]
      rfl

/-! ### The closing quote -/

/-- No quote stands alone in the text, and every backslash takes a character along that is no line
break. -/
inductive Inside : List Char → Prop
  | nil : Inside []
  | plain {c : Char} {rest : List Char} (hquote : c ≠ '"') (hslash : c ≠ '\\')
      (h : Inside rest) : Inside (c :: rest)
  | escaped {c : Char} {rest : List Char} (hbreak : c ≠ '\n') (h : Inside rest) :
      Inside ('\\' :: c :: rest)

theorem Inside.append {a b : List Char} (ha : Inside a) (hb : Inside b) : Inside (a ++ b) := by
  induction ha with
  | nil => exact hb
  | plain hquote hslash _ ih => exact .plain hquote hslash ih
  | escaped hbreak _ ih => exact .escaped hbreak ih

theorem inside_of_forall (h : ∀ x ∈ text, x ≠ '"' ∧ x ≠ '\\') : Inside text := by
  induction text with
  | nil => exact .nil
  | cons c text ih =>
    obtain ⟨⟨hquote, hslash⟩, htext⟩ := List.forall_mem_cons.1 h
    exact .plain hquote hslash (ih htext)

theorem stringTail_cons {c : Char} (hquote : c ≠ '"') (hslash : c ≠ '\\') (rest : List Char) :
    stringTail (c :: rest) = ((stringTail rest).1 + 1, (stringTail rest).2) := by
  rw [stringTail]
  all_goals simp [hquote, hslash]

/-- A backslash takes the next character along, unless the text ends within a numbered escape. -/
theorem stringTail_slash {c : Char} (hc : c ≠ '\n') {rest : List Char} (hrest : rest ≠ ['\x7b']) :
    stringTail ('\\' :: c :: rest) = ((stringTail rest).1 + 2, (stringTail rest).2) := by
  rw [stringTail, if_neg hc]
  exact fun _ h => hrest h

theorem Inside.stringTail (h : Inside inner) (after : List Char) :
    stringTail (inner ++ '"' :: after) = (inner.length + 1, true) := by
  induction h with
  | nil => rw [List.nil_append, LexClass.stringTail, List.length_nil]
  | plain hquote hslash _ ih =>
    rw [List.cons_append, stringTail_cons hquote hslash, ih, List.length_cons]
  | @escaped c rest hbreak _ ih =>
    have hrest : rest ++ '"' :: after ≠ ['\x7b'] := by
      intro heq
      have hmem : '"' ∈ rest ++ '"' :: after := by simp
      rw [heq] at hmem
      cases List.mem_singleton.1 hmem
    rw [List.cons_append, List.cons_append, stringTail_slash hbreak hrest, ih,
      List.length_cons, List.length_cons]

/-- A string is closed by the first quote behind an inside. -/
theorem stringTail_eq_iff : stringTail text = (n, true) ↔
    ∃ inner after, text = inner ++ '"' :: after ∧ Inside inner ∧ n = inner.length + 1 := by
  constructor
  · intro h
    fun_induction LexClass.stringTail text generalizing n with
    | case1 | case3 | case4 | case5 => cases h
    | case2 rest =>
      cases h
      exact ⟨[], rest, rfl, .nil, rfl⟩
    -- an escaped character is part of the inside, even if it is a quote
    | case6 c rest hbrace hbreak m closed hrest ih =>
      cases h
      obtain ⟨inner, after, rfl, hinner, rfl⟩ := ih hrest
      exact ⟨'\\' :: c :: inner, after, rfl, .escaped hbreak hinner, rfl⟩
    | case7 c rest hquote hend hbrace hslash m closed hrest ih =>
      cases h
      obtain ⟨inner, after, rfl, hinner, rfl⟩ := ih hrest
      have hslash' : c ≠ '\\' := by
        rintro rfl
        obtain ⟨x, others, hcons⟩ : ∃ x others, inner ++ '"' :: after = x :: others :=
          List.exists_cons_of_ne_nil (by simp)
        exact hslash x others rfl hcons
      exact ⟨c :: inner, after, rfl, .plain hquote hslash' hinner, rfl⟩
  · rintro ⟨inner, after, rfl, hinner, rfl⟩
    exact hinner.stringTail after

/-! ### Insides that stand for nothing -/

/-- The text leads to the number of a character: the number stands in braces, or it is all that
follows the opening brace. -/
def LeadsToNumber (text : List Char) : Prop :=
  ∃ number c tail, text = '\x7b' :: (number ++ tail) ∧ Numbers number c ∧
    ∀ x ∈ tail.head?, x = '\x7d'

theorem leadsToNumber_of_unescape? (h : unescape? ('\\' :: 'u' :: text) = some chars) :
    LeadsToNumber text := by
  by_cases hbrace : ∃ rest, text = '\x7b' :: rest
  · obtain ⟨rest, rfl⟩ := hbrace
    rw [unescape?] at h
    split at h
    · next c hc =>
      refine ⟨rest.takeWhile (· != '\x7d'), c, rest.dropWhile (· != '\x7d'), ?_,
        character?_eq_some_iff.1 hc, fun x hx => ?_⟩
      · rw [List.takeWhile_append_dropWhile]
      · have hstop := List.head?_dropWhile_not (· != '\x7d') rest
        rw [hx] at hstop
        simpa using hstop
    · cases h
  · rw [unescape?, if_pos rfl] at h
    · cases h
    · exact fun rest _ heq => hbrace ⟨rest, heq⟩

theorem Inside.of_append {plain rest : List Char} (h : Inside (plain ++ rest))
    (hplain : ∀ x ∈ plain, x ≠ '\\') : Inside rest := by
  induction plain with
  | nil => exact h
  | cons c plain ih =>
    obtain ⟨hc, hplain⟩ := List.forall_mem_cons.1 hplain
    generalize htext : c :: plain ++ rest = text at h
    cases h with
    | nil => cases htext
    | plain _ _ h =>
      obtain ⟨-, rfl⟩ := List.cons.inj htext
      exact ih h hplain
    | escaped =>
      obtain ⟨rfl, -⟩ := List.cons.inj htext
      exact absurd rfl hc

/-- Behind what stands for characters there is an escape with `u` that leads to no number. -/
def HasBadEscape (inner : List Char) : Prop :=
  ∃ front chars rest, inner = front ++ '\\' :: 'u' :: rest ∧ Each (Stands Numbers) front chars ∧
    ¬ LeadsToNumber rest

theorem denotes_or_hasBadEscape_append (hpiece : Stands Numbers piece c)
    (h : (∃ chars, Denotes rest chars) ∨ HasBadEscape rest) :
    (∃ chars, Denotes (piece ++ rest) chars) ∨ HasBadEscape (piece ++ rest) := by
  rcases h with ⟨chars, hchars⟩ | ⟨front, chars, others, rfl, hfront, hothers⟩
  · exact .inl ⟨c :: chars, hchars.cons hpiece⟩
  · refine .inr ⟨piece ++ front, c :: chars, others, ?_, .cons hpiece hfront, hothers⟩
    rw [List.append_assoc]

/-- The inside of a string stands for characters or has a bad escape. -/
theorem denotes_or_hasBadEscape (inner : List Char) (h : Inside inner) :
    (∃ chars, Denotes inner chars) ∨ HasBadEscape inner := by
  cases h with
  | nil => exact .inl ⟨[], .whole .nil⟩
  | @plain c rest hquote hslash hrest =>
    exact denotes_or_hasBadEscape_append (.itself hslash) (denotes_or_hasBadEscape rest hrest)
  | @escaped c rest hbreak hrest =>
    by_cases hletter : c = 'u'
    case neg =>
      exact denotes_or_hasBadEscape_append (.letter hletter) (denotes_or_hasBadEscape rest hrest)
    subst hletter
    by_cases hnumber : LeadsToNumber rest
    case neg => exact .inr ⟨[], [], rest, rfl, .nil, hnumber⟩
    obtain ⟨number, c, tail, heq, hnumber, htail⟩ := hnumber
    cases tail with
    | nil =>
      rw [heq, List.append_nil]
      exact .inl ⟨_, .cut .nil hnumber⟩
    | cons x tail =>
      obtain rfl := htail x rfl
      have hlt : tail.length < rest.length := by
        simp only [heq, List.length_cons, List.length_append]
        omega
      -- the number has no backslash, so that what follows it is again the inside of a literal
      have hplain : ∀ x ∈ '\x7b' :: (number ++ ['\x7d']), x ≠ '\\' := by
        intro x hx
        rcases List.mem_cons.1 hx with rfl | hx
        · decide
        rcases List.mem_append.1 hx with hx | hx
        · exact hnumber.ne_of_mem (by decide) x hx
        · rw [List.mem_singleton.1 hx]
          decide
      rw [List.append_cons, ← List.cons_append] at heq
      rw [heq] at hrest ⊢
      have htail := hrest.of_append hplain
      exact denotes_or_hasBadEscape_append (.number hnumber) (denotes_or_hasBadEscape tail htail)
termination_by inner.length
decreasing_by all_goals simp only [List.length_cons]; omega

theorem hasBadEscape_iff (h : Inside inner) :
    HasBadEscape inner ↔ ∀ chars, ¬ Denotes inner chars := by
  constructor
  · rintro ⟨front, chars, rest, rfl, hfront, hrest⟩ others hothers
    have hread := unescape?_eq_some_iff.2 hothers
    rw [hfront.unescape?] at hread
    obtain ⟨tail, htail, -⟩ := Option.map_eq_some_iff.1 hread
    exact hrest (leadsToNumber_of_unescape? htail)
  · intro hnone
    exact (denotes_or_hasBadEscape inner h).resolve_left fun ⟨chars, hchars⟩ => hnone chars hchars

/-! ### Numbers beyond the declared form -/

/-- Behind what stands for characters there is a number that is more than its digits, or one that
lacks its closing brace. -/
def HasLenientEscape (inner : List Char) : Prop :=
  ∃ front chars text c rest, inner = front ++ '\\' :: 'u' :: '\x7b' :: (text ++ rest) ∧
    Each (Stands Numbers) front chars ∧ Numbers text c ∧
      (rest = [] ∨ rest.head? = some '\x7d' ∧ ¬ IsNumberOf text c)

theorem Stands.mono (h : Stands IsNumberOf piece c) : Stands Numbers piece c := by
  cases h with
  | itself hslash => exact .itself hslash
  | letter hnumber => exact .letter hnumber
  | number h => exact .number h.numbers

/-- What stands for the first character is told by the text. -/
theorem Stands.eq_of_append {d : Char} {other others : List Char} (h : Stands Numbers piece c)
    (hother : Stands Numbers other d) (heq : piece ++ rest = other ++ others) : rest = others := by
  cases h with
  | itself hslash =>
    cases hother with
    | itself => simpa using (List.cons.inj heq).2
    | letter | number => exact absurd (List.cons.inj heq).1 hslash
  | letter hnumber =>
    cases hother with
    | itself hslash => exact absurd (List.cons.inj heq).1.symm hslash
    | letter => simpa using (List.cons.inj (List.cons.inj heq).2).2
    | number => exact absurd (List.cons.inj (List.cons.inj heq).2).1 hnumber
  | number h =>
    cases hother with
    | itself hslash => exact absurd (List.cons.inj heq).1.symm hslash
    | letter hnumber => exact absurd (List.cons.inj (List.cons.inj heq).2).1.symm hnumber
    | number hother =>
      simp only [List.cons_append, List.append_assoc, List.nil_append, List.cons.injEq,
        true_and] at heq
      exact (h.eq_of_append hother heq).2.2

theorem Each.of_append (hfront : Each (Stands Numbers) text chars) {others : List Char}
    (h : Each (Stands IsNumberOf) (text ++ rest) others) :
    ∃ more, Each (Stands IsNumberOf) rest more := by
  induction hfront generalizing others with
  | nil => exact ⟨others, h⟩
  | @cons piece tail chars c hpiece _ ih =>
    rw [List.append_assoc] at h
    generalize htext : piece ++ (tail ++ rest) = whole at h
    cases h with
    | nil => cases hpiece <;> cases htext
    | cons hother hothers =>
      rw [← hpiece.eq_of_append hother.mono htext] at hothers
      exact ih hothers

theorem each_or_hasLenientEscape (h : Each (Stands Numbers) inner chars) :
    Each (Stands IsNumberOf) inner chars ∨ HasLenientEscape inner := by
  induction h with
  | nil => exact .inl .nil
  | @cons piece rest chars c hpiece _ ih =>
    rcases ih with hrest | ⟨front, others, text, d, more, rfl, hfront, hnumber⟩
    · cases hpiece with
      | itself hslash => exact .inl (.cons (.itself hslash) hrest)
      | letter hletter => exact .inl (.cons (.letter hletter) hrest)
      | @number text c h =>
        by_cases hdigits : IsNumberOf text c
        · exact .inl (.cons (.number hdigits) hrest)
        · exact .inr ⟨[], [], text, c, '\x7d' :: rest, by simp, .nil, h, .inr ⟨rfl, hdigits⟩⟩
    · refine .inr ⟨piece ++ front, c :: others, text, d, more, ?_, .cons hpiece hfront, hnumber⟩
      rw [List.append_assoc]

/-- An inside that denotes characters is of the declared form unless it has a lenient escape. -/
theorem each_isNumberOf_iff (h : Denotes inner chars) :
    Each (Stands IsNumberOf) inner chars ↔ ¬ HasLenientEscape inner := by
  constructor
  · rintro heach ⟨front, others, text, c, rest, rfl, hfront, hnumber, hrest⟩
    obtain ⟨more, hmore⟩ := hfront.of_append heach
    generalize htail : '\\' :: 'u' :: '\x7b' :: (text ++ rest) = tail at hmore
    cases hmore with
    | nil => cases htail
    | @cons piece after _ d hpiece _ =>
      cases hpiece with
      | itself hslash => exact hslash (List.cons.inj htail).1.symm
      | letter hletter => exact hletter (List.cons.inj (List.cons.inj htail).2).1.symm
      | @number digits _ hdigits =>
        simp only [List.cons_append, List.append_assoc, List.nil_append, List.cons.injEq,
          true_and] at htail
        rcases hrest with rfl | ⟨hbrace, hmore⟩
        · rw [List.append_nil] at htail
          exact hnumber.ne_brace '\x7d' (by simp [htail]) rfl
        · obtain ⟨others, rfl⟩ := List.head?_eq_some_iff.1 hbrace
          -- the number that a piece stands for is the same one, as it ends at the first closing
          -- brace
          obtain ⟨rfl, rfl, -⟩ := hnumber.eq_of_append hdigits.numbers htail
          exact hmore hdigits
  · intro hnone
    cases h with
    | whole h => exact (each_or_hasLenientEscape h).resolve_right hnone
    | @cut front chars text c h hnumber =>
      exact absurd ⟨front, chars, text, c, [], by rw [List.append_nil], h, hnumber, .inl rfl⟩ hnone

/-! ### String literals -/

/-- The literal with this inside. -/
def quoted (inner : List Char) : List Char := '"' :: (inner ++ ['"'])

theorem read?_quoted (inner : List Char) :
    str.read? (quoted inner) = (unescape? inner).map fun chars => .str (String.ofList chars) := by
  rw [read?, readString?, quoted, List.drop_one, List.tail_cons, List.dropLast_concat,
    Option.map_map]
  rfl

theorem read?_quoted_of_denotes (h : Denotes inner chars) :
    str.read? (quoted inner) = some (.str (String.ofList chars)) := by
  rw [read?_quoted, unescape?_eq_some_iff.2 h, Option.map_some]

theorem scan_quoted (h : Inside inner) (after : List Char) :
    scan '"' (inner ++ ['"'] ++ after) = some (.str, (inner ++ ['"']).length) := by
  rw [List.append_assoc, List.length_append]
  exact scan_quote_iff.2 ⟨h.stringTail after, rfl⟩

/-! ### What a printer writes -/

/-- The short escapes, a letter after a backslash for each character. -/
def shortEscapes : List (Char × Char) :=
  [('"', '"'), ('\\', '\\'), ('n', '\n'), ('r', '\r'), ('t', '\t'), ('0', '\x00')]

/-- What a printer of string literals may write for a character. -/
inductive Writes : List Char → Char → Prop
  | itself {c : Char} (hquote : c ≠ '"') (hslash : c ≠ '\\') : Writes [c] c
  | short {x c : Char} (h : (x, c) ∈ shortEscapes) : Writes ['\\', x] c
  | number {digits : List Char} {c : Char} (h : IsNumberOf digits c) :
      Writes ('\\' :: 'u' :: '\x7b' :: (digits ++ ['\x7d'])) c

theorem Writes.stands (h : Writes text c) : Stands Numbers text c := by
  cases h with
  | itself hquote hslash => exact .itself hslash
  | number h => exact .number h.numbers
  | @short x c h =>
    have hletter : ∀ p ∈ shortEscapes, p.1 ≠ 'u' ∧ unescapeLetter p.1 = p.2 := by decide
    obtain ⟨hnumber, heq⟩ := hletter (x, c) h
    have hpiece : Stands Numbers ['\\', x] _ := .letter hnumber
    rwa [heq] at hpiece

theorem Writes.inside (h : Writes text c) : Inside text := by
  cases h with
  | itself hquote hslash => exact .plain hquote hslash .nil
  | number h =>
    refine .escaped (by decide) (.plain (by decide) (by decide) (.append ?_ ?_))
    · exact inside_of_forall fun x hx => (facts_of_isHexDigit (h.hex x hx)).2
    · exact .plain (by decide) (by decide) .nil
  | @short x c h =>
    have hbreak : ∀ p ∈ shortEscapes, p.1 ≠ '\n' := by decide
    exact .escaped (hbreak _ h) .nil

theorem Each.inside (h : Each Writes text chars) : Inside text := by
  induction h with
  | nil => exact .nil
  | cons hpiece _ ih => exact hpiece.inside.append ih

theorem isNumberOf_toDigits (c : Char) : IsNumberOf (Nat.toDigits 16 c.toNat) c where
  ne_nil := Nat.toDigits_ne_nil
  hex x hx := by
    have hdigit : ∀ d < 16, isHexDigit (Nat.digitChar d) = true := by decide
    obtain ⟨d, hd, rfl⟩ := exists_digitChar_of_mem_toDigits (by decide) hx
    exact hdigit d hd
  value := positionalValue_toDigits (by decide) (Nat.le_refl 16) c.toNat

theorem writes_escapeChar (c : Char) : Writes (Text.escapeChar c) c := by
  by_cases h : ∃ x, (x, c) ∈ shortEscapes
  · obtain ⟨x, hx⟩ := h
    have hshort : ∀ p ∈ shortEscapes, Text.escapeChar p.2 = ['\\', p.1] := by decide
    rw [hshort _ hx]
    exact .short hx
  · have hne : ∀ p ∈ shortEscapes, c ≠ p.2 := by
      rintro p hp rfl
      exact h ⟨p.1, hp⟩
    simp only [shortEscapes, List.forall_mem_cons] at hne
    obtain ⟨hquote, hslash, hbreak, hreturn, htab, hnull, -⟩ := hne
    rw [Text.escapeChar, if_neg hquote, if_neg hslash, if_neg hbreak, if_neg hreturn, if_neg htab,
      if_neg hnull]
    split
    · exact .number (isNumberOf_toDigits c)
    · exact .itself hquote hslash

/-- What a string is printed as stands for the string. -/
theorem each_escapeChar (text : List Char) : Each Writes (text.flatMap Text.escapeChar) text := by
  induction text with
  | nil => exact .nil
  | cons c text ih => exact .cons (writes_escapeChar c) ih

end PipeLang.LexClass
