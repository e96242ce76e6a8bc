import PipeLang.Proofs.Boundary

/-!
# Texts that are cut off behind a lexeme

The longest lexeme at the start of a text is still the longest one if the text is cut off
somewhere behind it (`LexClass.scan_of_append`).  Less text never makes a lexeme longer: an alphabet
runs to the same place, and a part that may or may not follow, a qualification, a fraction or an
exponent, was not there before and cannot be there now.  The exception is a name before a
colon, which is one by the character after it.

For each function that says how far a class reaches, one lemma says that it answers the same on the
part of the text that it reaches over.
-/

namespace PipeLang

namespace LexClass

variable {c : Char} {cls : LexClass} {n : Nat} {a b : List Char}

/-! ### How far a class reaches -/

/-- A run that ends within the first part is not changed by what follows. -/
theorem run_of_append {p : Char → Bool} (h : run p (a ++ b) ≤ a.length) :
    run p (a ++ b) = run p a := by
  unfold run at h ⊢
  rw [List.takeWhile_append] at h ⊢
  split at h
  · next hall =>
    rw [List.length_append] at h
    rw [if_pos hall, List.length_append]
    omega
  · next hall => rw [if_neg hall]

/-- More text can only make a run longer. -/
theorem run_le_append (p : Char → Bool) (a b : List Char) : run p a ≤ run p (a ++ b) := by
  unfold run
  rw [List.takeWhile_append]
  split
  · next hall =>
    rw [List.length_append]
    omega
  · exact Nat.le_refl _

/-- A qualification is two colons and a name of at least one character. -/
theorem qualification_eq_zero (h : qualification a < 3) : qualification a = 0 := by
  unfold qualification at h ⊢
  split
  · split
    · next hc =>
      simp only [if_pos hc] at h
      omega
    · rfl
  · rfl

/-- A qualification that ends within the first part is there already. -/
theorem qualification_of_append (h : qualification (a ++ b) ≤ a.length) :
    qualification (a ++ b) = qualification a := by
  have hle := qualification_le a
  rcases a with _ | ⟨x, _ | ⟨y, _ | ⟨z, rest⟩⟩⟩
  · rw [List.length_nil] at h hle
    omega
  · rw [List.length_singleton] at h hle
    rw [qualification_eq_zero (by omega), qualification_eq_zero (by omega)]
  · simp only [List.length_cons, List.length_nil] at h hle
    rw [qualification_eq_zero (by omega), qualification_eq_zero (by omega)]
  · simp only [List.cons_append] at h ⊢
    -- without the two colons in front there is none on either side
    by_cases hcolons : x = ':' ∧ y = ':'
    · obtain ⟨rfl, rfl⟩ := hcolons
      simp only [qualification, List.length_cons] at h ⊢
      split
      · next hz =>
        rw [if_pos hz] at h
        rw [run_of_append (by omega)]
      · rfl
    · rw [qualification, qualification]
      all_goals
        rintro d tail ⟨⟩
        exact hcolons ⟨rfl, rfl⟩

theorem nameTail_of_append (h : nameTail (a ++ b) ≤ a.length) :
    nameTail (a ++ b) = nameTail a := by
  simp only [nameTail] at h ⊢
  have hplain : run continuesName (a ++ b) = run continuesName a := run_of_append (by omega)
  have hle := run_le continuesName a
  rw [hplain, List.drop_append_of_le_length hle] at h ⊢
  rw [qualification_of_append (by rw [List.length_drop]; omega)]

/-- A fraction is a point and at least one digit. -/
theorem fractionPart_eq_zero (h : fractionPart a < 2) : fractionPart a = 0 := by
  unfold fractionPart at h ⊢
  split
  · split
    · next hc =>
      simp only [if_pos hc] at h
      omega
    · rfl
  · rfl

theorem fractionPart_of_append (h : fractionPart (a ++ b) ≤ a.length) :
    fractionPart (a ++ b) = fractionPart a := by
  have hle := fractionPart_le a
  rcases a with _ | ⟨x, _ | ⟨y, rest⟩⟩
  · rw [List.length_nil] at h hle
    omega
  · rw [List.length_singleton] at h hle
    rw [fractionPart_eq_zero (by omega), fractionPart_eq_zero (by omega)]
  · simp only [List.cons_append] at h ⊢
    by_cases hpoint : x = '.'
    · subst hpoint
      simp only [fractionPart, List.length_cons] at h ⊢
      split
      · next hy =>
        rw [if_pos hy] at h
        rw [run_of_append (by omega)]
      · rfl
    · rw [fractionPart, fractionPart]
      all_goals
        rintro d tail ⟨⟩
        exact hpoint rfl

/-- An exponent is a letter and at least one digit. -/
theorem exponentPart_eq_zero (h : exponentPart a < 2) : exponentPart a = 0 := by
  cases a with
  | nil => rfl
  | cons c rest =>
    rw [exponentPart_cons] at h ⊢
    dsimp only at h ⊢
    split at h
    · next hc =>
      rw [if_pos hc]
      split at h
      · next hdigits => rw [if_pos hdigits]
      · omega
    · next hc => rw [if_neg hc]

/-- The sign of an exponent belongs to it only if digits follow. -/
theorem exponentPart_of_append (h : exponentPart (a ++ b) ≤ a.length) :
    exponentPart (a ++ b) = exponentPart a := by
  have hle := exponentPart_le a
  rcases a with _ | ⟨x, _ | ⟨y, rest⟩⟩
  · rw [List.length_nil] at h hle
    omega
  · rw [List.length_singleton] at h hle
    rw [exponentPart_eq_zero (by omega), exponentPart_eq_zero (by omega)]
  -- there is a character after the letter, so that the sign does not depend on what follows
  · have hsign : signLength (y :: rest ++ b) = signLength (y :: rest) := by
      rw [List.cons_append]
      unfold signLength
      split <;> split <;> simp_all
    have hsign_le := signLength_le (y :: rest)
    rw [List.cons_append, exponentPart_cons] at h ⊢
    rw [exponentPart_cons]
    rw [hsign, List.drop_append_of_le_length hsign_le] at h ⊢
    dsimp only at h ⊢
    split
    · next hx =>
      rw [if_pos hx] at h
      have hdigits : run continuesNumber ((y :: rest).drop (signLength (y :: rest)) ++ b) =
          run continuesNumber ((y :: rest).drop (signLength (y :: rest))) := by
        apply run_of_append
        rw [List.length_drop]
        simp only [List.length_cons] at h hsign_le ⊢
        split at h <;> omega
      rw [hdigits]
    · rfl

/-- A decimal number is digits, a fraction and an exponent. -/
theorem decimalTail_snd (text : List Char) :
    (decimalTail text).2 = run continuesNumber text +
      fractionPart (text.drop (run continuesNumber text)) +
      exponentPart (text.drop (run continuesNumber text +
        fractionPart (text.drop (run continuesNumber text)))) := by
  simp only [decimalTail]
  split
  · dsimp only
    omega
  · rfl

theorem decimalTail_of_append (h : (decimalTail (a ++ b)).2 ≤ a.length) :
    decimalTail (a ++ b) = decimalTail a := by
  rw [decimalTail_snd] at h
  have hwhole : run continuesNumber (a ++ b) = run continuesNumber a := run_of_append (by omega)
  have hwhole_le := run_le continuesNumber a
  rw [hwhole, List.drop_append_of_le_length hwhole_le] at h
  have hfraction : fractionPart (a.drop (run continuesNumber a) ++ b) =
      fractionPart (a.drop (run continuesNumber a)) :=
    fractionPart_of_append (by rw [List.length_drop]; omega)
  have hfraction_le := fractionPart_le (a.drop (run continuesNumber a))
  rw [List.length_drop] at hfraction_le
  rw [hfraction, List.drop_append_of_le_length (by omega)] at h
  have hexponent := exponentPart_of_append (a := a.drop (run continuesNumber a +
    fractionPart (a.drop (run continuesNumber a)))) (b := b) (by rw [List.length_drop]; omega)
  simp only [decimalTail, hwhole, List.drop_append_of_le_length hwhole_le, hfraction]
  rw [List.drop_append_of_le_length (by omega), hexponent]

/-- The text after a zero continues a number in another base than ten. -/
def IsBased (base : Nat) (text : List Char) : Prop :=
  ∃ letter rest, text = letter :: rest ∧ base? letter = some base ∧
    0 < run (continuesBase base) rest

/-- A based number ends with its digits. -/
theorem numberTail_of_isBased {base : Nat} {text : List Char} (h : IsBased base text) :
    numberTail '0' text = (int base, run (continuesBase base) (text.drop 1) + 1) := by
  obtain ⟨letter, rest, rfl, hbase, hdigits⟩ := h
  simp [numberTail, hbase, hdigits]

/-- Any other number is a decimal one. -/
theorem numberTail_of_not_isBased {text : List Char} (h : c = '0' → ∀ base, ¬ IsBased base text) :
    numberTail c text = decimalTail text := by
  unfold numberTail
  split
  · next letter rest =>
    split
    · next base hbase =>
      dsimp only
      split
      · next hdigits => exact absurd ⟨letter, rest, rfl, hbase, hdigits.2⟩ (h hdigits.1 base)
      · rfl
    · rfl
  · rfl

theorem numberTail_of_append (h : (numberTail c (a ++ b)).2 ≤ a.length) :
    numberTail c (a ++ b) = numberTail c a := by
  by_cases hbased : c = '0' ∧ ∃ base, IsBased base (a ++ b)
  -- the digits of the base stand in the part that is kept
  · obtain ⟨rfl, base, hbased⟩ := hbased
    rw [numberTail_of_isBased hbased] at h ⊢
    obtain ⟨letter, rest, htext, hbase, hdigits⟩ := hbased
    cases a with
    | nil => cases h
    | cons d tail =>
      obtain ⟨rfl, rfl⟩ := List.cons.inj htext
      have hrun : run (continuesBase base) (tail ++ b) = run (continuesBase base) tail :=
        run_of_append (Nat.le_of_succ_le_succ h)
      have hcut : IsBased base (d :: tail) := ⟨d, tail, rfl, hbase, by rwa [← hrun]⟩
      rw [numberTail_of_isBased hcut]
      simp only [List.cons_append, List.drop_succ_cons, List.drop_zero, hrun]
  · have hnone : c = '0' → ∀ base, ¬ IsBased base (a ++ b) :=
      fun hc base hbase => hbased ⟨hc, base, hbase⟩
    have hcut : c = '0' → ∀ base, ¬ IsBased base a := by
      rintro hc base ⟨letter, rest, rfl, hbase, hdigits⟩
      refine hnone hc base ⟨letter, rest ++ b, rfl, hbase, ?_⟩
      exact Nat.lt_of_lt_of_le hdigits (run_le_append _ rest b)
    rw [numberTail_of_not_isBased hnone] at h ⊢
    rw [numberTail_of_not_isBased hcut, decimalTail_of_append h]

/-- A closed operator does not look beyond its closing percent sign. -/
theorem specialTail_of_append (h : specialTail (a ++ b) = (n, true)) (hn : n ≤ a.length) :
    specialTail a = (n, true) := by
  simp only [specialTail] at h ⊢
  split at h
  · next rest hdrop =>
    cases h
    have hrun : run continuesSpecial (a ++ b) = run continuesSpecial a := run_of_append (by omega)
    rw [hrun] at hdrop hn ⊢
    rw [List.drop_append_of_le_length (by omega)] at hdrop
    cases hcut : a.drop (run continuesSpecial a) with
    | nil =>
      have := congrArg List.length hcut
      rw [List.length_drop, List.length_nil] at this
      omega
    | cons d tail =>
      rw [hcut] at hdrop
      obtain ⟨rfl, -⟩ := List.cons.inj hdrop
      rfl
  · cases h

/-- A closed string does not look beyond its closing quote. -/
theorem stringTail_of_append (h : stringTail (a ++ b) = (n, true)) (hn : n ≤ a.length) :
    stringTail a = (n, true) := by
  obtain ⟨inner, after, htext, hinner, rfl⟩ := stringTail_eq_iff.1 h
  -- the closing quote stands in the part that is kept
  have hprefix : inner ++ ['"'] <+: a := by
    have hclosed : inner ++ ['"'] <+: a ++ b :=
      ⟨after, by rw [htext, List.append_assoc, List.singleton_append]⟩
    exact List.prefix_of_prefix_length_le hclosed (List.prefix_append a b) (by simpa using hn)
  obtain ⟨others, rfl⟩ := hprefix
  rw [List.append_assoc, List.singleton_append]
  exact hinner.stringTail others

/-- The first character of a text with one in the first part is there. -/
theorem eq_cons_of_append {d : Char} {tail : List Char} (ha : 0 < a.length)
    (h : a ++ b = d :: tail) : ∃ others, a = d :: others ∧ others ++ b = tail := by
  cases a with
  | nil => cases ha
  | cons c others =>
    obtain ⟨rfl, htail⟩ := List.cons.inj h
    exact ⟨others, rfl, htail⟩

/-- A mark is found again if it lies within the first part. -/
theorem mark?_of_append {token : Token} (h : mark? c (a ++ b) = some (token, n))
    (hn : n ≤ a.length) : mark? c a = some (token, n) := by
  generalize htext : a ++ b = text at h
  unfold mark? at h
  split at h
  -- the marks of three characters, of two, and then those of one, which must not be the beginning
  -- of a longer one
  case h_14 =>
    cases h
    obtain ⟨others, rfl, hrest⟩ := eq_cons_of_append (by omega) htext
    obtain ⟨others, rfl, -⟩ := eq_cons_of_append (Nat.le_of_succ_le_succ hn) hrest
    rfl
  case h_15 | h_16 | h_18 | h_20 | h_21 | h_23 | h_24 =>
    cases h
    obtain ⟨others, rfl, -⟩ := eq_cons_of_append hn htext
    rfl
  case h_17 hsuper hleft hless =>
    cases h
    rw [mark?]
    · rintro tail rfl
      exact hsuper _ htext.symm
    · rintro tail rfl
      exact hleft _ htext.symm
    · rintro tail rfl
      exact hless _ htext.symm
  case h_19 hgreater =>
    cases h
    rw [mark?]
    rintro tail rfl
    exact hgreater _ htext.symm
  case h_22 hbang =>
    cases h
    rw [mark?]
    rintro tail rfl
    exact hbang _ htext.symm
  case h_29 => cases h
  all_goals
    cases h
    rfl

/-- A word is found again; a label needs its colon in the first part too. -/
theorem wordTail_of_append {n : Nat} (h : wordTail (a ++ b) = (cls, n)) (hn : n ≤ a.length)
    (hlabel : cls = label → n < a.length) : wordTail a = (cls, n) := by
  simp only [wordTail] at h ⊢
  have hname : nameTail (a ++ b) ≤ a.length := by
    split at h <;> cases h <;> exact hn
  rw [nameTail_of_append hname] at h hname
  rw [List.drop_append_of_le_length hname] at h
  split at h
  · next rest hdrop =>
    cases h
    cases hcut : a.drop (nameTail a) with
    | nil =>
      -- the colon would be beyond the first part
      have hlength := congrArg List.length hcut
      have hlt := hlabel rfl
      rw [List.length_drop, List.length_nil] at hlength
      omega
    | cons d tail =>
      rw [hcut] at hdrop
      obtain ⟨rfl, -⟩ := List.cons.inj hdrop
      rfl
  · next hdrop =>
    cases h
    split
    · next rest hcut =>
      rw [hcut] at hdrop
      exact absurd rfl (hdrop _)
    · rfl

/-- The longest lexeme of a text stays the longest one where the text is cut off behind it.  Only a
name before a colon needs the colon. -/
theorem scan_of_append (h : scan c (a ++ b) = some (cls, n)) (hn : n ≤ a.length)
    (hlabel : cls = label → n < a.length) : scan c a = some (cls, n) := by
  unfold scan at h ⊢
  -- the classes are tried in order, and each one that was not met in the whole is not met in the
  -- first part
  split at h
  case isTrue hc =>
    rw [if_pos hc]
    cases h
    rw [run_of_append hn]
  case isFalse hc =>
  rw [if_neg hc]
  split at h
  case isTrue hc =>
    rw [if_pos hc]
    cases h
    rw [run_of_append hn]
  case isFalse hc =>
  rw [if_neg hc]
  split at h
  case isTrue hc =>
    rw [if_pos hc]
    rw [wordTail_of_append (Option.some.inj h) hn hlabel]
  case isFalse hc =>
  rw [if_neg hc]
  split at h
  case isTrue hc =>
    have hnumber := Option.some.inj h
    rw [if_pos hc, ← numberTail_of_append (by rw [hnumber]; exact hn), hnumber]
  case isFalse hc =>
  rw [if_neg hc]
  split at h
  case isTrue hc =>
    cases h
    have hfraction : fractionPart (c :: (a ++ b)) = fractionPart (c :: a) :=
      fractionPart_of_append (a := c :: a) (by rw [List.cons_append, List.length_cons]; omega)
    have hfraction_le := fractionPart_le (c :: a)
    rw [List.length_cons] at hfraction_le
    rw [hfraction] at hc hn ⊢
    rw [List.drop_append_of_le_length (by omega)] at hn ⊢
    rw [if_pos hc, exponentPart_of_append (by rw [List.length_drop]; omega)]
  case isFalse hc =>
  -- a fraction of the first part would be one of the whole
  have hpoint : ¬ (c = '.' ∧ fractionPart (c :: a) ≠ 0) := by
    rintro ⟨hdot, hfraction⟩
    have hzero : fractionPart (c :: (a ++ b)) = 0 := Decidable.not_not.1 fun hne => hc ⟨hdot, hne⟩
    have hle : fractionPart (c :: a ++ b) ≤ (c :: a).length := by
      rw [List.cons_append, hzero]
      exact Nat.zero_le _
    exact hfraction ((fractionPart_of_append hle).symm.trans hzero)
  rw [if_neg hpoint]
  split at h
  case isTrue hc =>
    rw [if_pos hc]
    split at h
    · next hclosed =>
      cases h
      rw [specialTail_of_append hclosed hn]
    · cases h
  case isFalse hc =>
  rw [if_neg hc]
  split at h
  case isTrue hc =>
    rw [if_pos hc]
    split at h
    · next hclosed =>
      cases h
      rw [stringTail_of_append hclosed hn]
    · cases h
  case isFalse hc =>
  rw [if_neg hc]
  obtain ⟨⟨token, m⟩, hmark, h⟩ := Option.map_eq_some_iff.1 h
  cases h
  rw [mark?_of_append hmark hn]
  rfl

end LexClass

end PipeLang
