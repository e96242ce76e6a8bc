import Mathlib.Data.Nat.Digits.Defs
import PipeLang.Proofs.Lexing
import PipeLang.Proofs.Tiling

/-!
# Integer literals

An integer literal is a text of digits and underscores, behind the mark of its base if that is not
ten (`IntLiteral`; `exists_intLiteral_iff` gives the texts of this form in the alphabets of the
lexer).  Its value is the sum of its digits times the powers of the base.

The lexer takes the whole literal as one lexeme (`IntLiteral.scan_eq`) and reads the exact value or
nothing (`IntLiteral.readInt?_eq`).  So a literal without digits or with a value of more than 63
bits is a failure, and no other value comes out of it (`integer_literals_denote_or_fail`).
-/

namespace PipeLang

/-- A text of digits in a base, where letters stand in either case, and of underscores, which are
left out of the digits. -/
inductive Numeral (base : Nat) : List Char → List Nat → Prop
  | nil : Numeral base [] []
  | underscore {text : List Char} {digits : List Nat} (h : Numeral base text digits) :
      Numeral base ('_' :: text) digits
  | digit {c : Char} {d : Nat} {text : List Char} {digits : List Nat} (hd : d < base)
      (hc : c = d.digitChar ∨ c = d.digitChar.toUpper) (h : Numeral base text digits) :
      Numeral base (c :: text) (d :: digits)

/-- An integer literal with its base and its digits.  A mark of the base is followed by a digit or
an underscore, and a literal without a mark starts with a digit. -/
inductive IntLiteral : List Char → Nat → List Nat → Prop
  | binary {text : List Char} {digits : List Nat} (hne : text ≠ []) (h : Numeral 2 text digits) :
      IntLiteral ('0' :: 'b' :: text) 2 digits
  | octal {text : List Char} {digits : List Nat} (hne : text ≠ []) (h : Numeral 8 text digits) :
      IntLiteral ('0' :: 'o' :: text) 8 digits
  | hexadecimal {text : List Char} {digits : List Nat} (hne : text ≠ [])
      (h : Numeral 16 text digits) : IntLiteral ('0' :: 'x' :: text) 16 digits
  | decimal {d : Nat} {text : List Char} {digits : List Nat} (hd : d < 10)
      (h : Numeral 10 text digits) : IntLiteral (d.digitChar :: text) 10 (d :: digits)

variable {base d : Nat} {c : Char} {text : List Char} {digits : List Nat}

/-! ### Values -/

/-- Reading digit after digit gives the sum of the digits times the powers of the base. -/
theorem positionalValue_eq_ofDigits (base : Nat) (text : List Char) :
    positionalValue base text = Nat.ofDigits base (text.map digitValue).reverse := by
  rw [Nat.ofDigits_eq_foldr, List.foldr_reverse, List.foldl_map, positionalValue]
  congr 1
  funext value c
  exact Nat.add_comm ..

/-- A digit in either case is no underscore, and its value is the digit. -/
theorem digitValue_of_digit (hd : d < 16) (hc : c = d.digitChar ∨ c = d.digitChar.toUpper) :
    c ≠ '_' ∧ digitValue c = d := by
  have hall : ∀ d < 16, (d.digitChar ≠ '_' ∧ digitValue d.digitChar = d) ∧
      d.digitChar.toUpper ≠ '_' ∧ digitValue d.digitChar.toUpper = d := by
    decide
  rcases hc with rfl | rfl
  · exact (hall d hd).1
  · exact (hall d hd).2

/-- The number that digits of a base denote, the highest digit first. -/
def numberOf (base : Nat) (digits : List Nat) : Nat := Nat.ofDigits base digits.reverse

namespace Numeral

theorem map_digitValue (hbase : base ≤ 16) (h : Numeral base text digits) :
    (LexClass.dropUnderscores text).map digitValue = digits := by
  unfold LexClass.dropUnderscores
  induction h with
  | nil => rfl
  | underscore _ ih => rwa [List.filter_cons_of_neg (by decide)]
  | digit hd hc _ ih =>
    obtain ⟨hne, hvalue⟩ := digitValue_of_digit (Nat.lt_of_lt_of_le hd hbase) hc
    rw [List.filter_cons_of_pos (by simpa using hne), List.map_cons, hvalue, ih]

/-- The characters of a numeral belong to an alphabet, if the digits of the base and the underscore
do. -/
theorem forall_mem {p : Char → Bool} (hscore : p '_' = true)
    (hdigit : ∀ d < base, p d.digitChar = true ∧ p d.digitChar.toUpper = true)
    (h : Numeral base text digits) : ∀ x ∈ text, p x = true := by
  induction h with
  | nil => simp
  | underscore _ ih => exact List.forall_mem_cons.2 ⟨hscore, ih⟩
  | digit hd hc _ ih =>
    refine List.forall_mem_cons.2 ⟨?_, ih⟩
    rcases hc with rfl | rfl
    · exact (hdigit _ hd).1
    · exact (hdigit _ hd).2

/-- The digits of a numeral and their value, as the lexer reads them. -/
theorem int64?_eq (hbase : base ≤ 16) (h : Numeral base text digits) :
    (if LexClass.dropUnderscores text = [] then none
      else int64? (positionalValue base (LexClass.dropUnderscores text))) =
    if digits = [] then none else int64? (numberOf base digits) := by
  rw [positionalValue_eq_ofDigits, h.map_digitValue hbase, numberOf]
  simp only [← h.map_digitValue hbase, List.map_eq_nil_iff]

end Numeral

namespace LexClass

/-! ### The extent of a literal -/

/-- A numeral behind the mark of its base is taken as a whole. -/
theorem scan_based {letter : Char} (hbase : base? letter = some base) (hne : text ≠ [])
    (htext : ∀ x ∈ text, continuesBase base x = true) :
    scan '0' (letter :: text) = some (int base, (letter :: text).length) := by
  have hrun : run (continuesBase base) (text ++ []) = text.length := run_append htext (by simp)
  rw [List.append_nil] at hrun
  have hpos : 0 < text.length := List.length_pos_iff.2 hne
  have htail : numberTail '0' (letter :: text) = (int base, (letter :: text).length) := by
    simp only [numberTail, hbase, hrun, hpos, and_self, if_true, List.length_cons]
  rw [← htail]
  rfl

/-- A numeral of base ten is taken as a whole, and no letter in it announces another base. -/
theorem scan_decimal (hd : d < 10) (h : Numeral 10 text digits) :
    scan d.digitChar text = some (int 10, text.length) := by
  have htext : ∀ x ∈ text, continuesNumber x = true := h.forall_mem rfl (by decide)
  have hletter : ∀ x ∈ text, (base? x).isNone = true := h.forall_mem rfl (by decide)
  have hrun : run continuesNumber (text ++ []) = text.length := run_append htext (by simp)
  rw [List.append_nil] at hrun
  have hdecimal : decimalTail text = (int 10, text.length) := by
    simp only [decimalTail, hrun, List.drop_length, fractionPart, Nat.add_zero, exponentPart,
      if_true]
  rw [scan_digitChar hd, ← hdecimal]
  cases text with
  | nil => rfl
  | cons x rest =>
    have hx := Option.isNone_iff_eq_none.1 (hletter x List.mem_cons_self)
    simp only [numberTail, hx]

end LexClass

namespace IntLiteral

/-- A literal is one lexeme, whose class is that of its base. -/
theorem scan_eq (h : IntLiteral (c :: text) base digits) :
    LexClass.scan c text = some (.int base, text.length) := by
  cases h with
  | binary hne h => exact LexClass.scan_based rfl hne (h.forall_mem rfl (by decide))
  | octal hne h => exact LexClass.scan_based rfl hne (h.forall_mem rfl (by decide))
  | hexadecimal hne h => exact LexClass.scan_based rfl hne (h.forall_mem rfl (by decide))
  | decimal hd h => exact LexClass.scan_decimal hd h

/-- The value that is read is the exact one, and none is read without digits or out of range. -/
theorem readInt?_eq (h : IntLiteral text base digits) :
    LexClass.readInt? base text =
      if digits = [] then none else int64? (numberOf base digits) := by
  cases h with
  | binary _ h | octal _ h | hexadecimal _ h => exact h.int64?_eq (by decide)
  | decimal hd h => exact Numeral.int64?_eq (by decide) (.digit hd (.inl rfl) h)

theorem exists_cons (h : IntLiteral text base digits) : ∃ c rest, text = c :: rest := by
  cases h <;> exact ⟨_, _, rfl⟩

end IntLiteral

/-! ### The texts of literals -/

namespace LexClass

theorem toNat_lt_of_continuesBase (h : continuesBase base c = true) : c.toNat < 128 := by
  have hle : ∀ d : Char, d.toNat < 128 → c ≤ d → c.toNat < 128 := fun d hd h =>
    Nat.lt_of_le_of_lt (UInt32.le_iff_toNat_le.1 (Char.le_def.1 h)) hd
  have heq : ∀ d : Char, d.toNat < 128 → c = d → c.toNat < 128 := by
    rintro d hd rfl
    exact hd
  simp only [continuesBase, Char.isDigit] at h
  split_ifs at h
  all_goals simp only [Bool.or_eq_true, Bool.and_eq_true, decide_eq_true_eq, beq_iff_eq] at h
  · rcases h with (h | h) | h
    all_goals exact heq _ (by decide) h
  · rcases h with h | h
    · exact hle _ (by decide) h.2
    · exact heq _ (by decide) h
  · rcases h with ((h | h) | h) | h
    · exact hle '9' (by decide) h.2
    · exact hle _ (by decide) h.2
    · exact hle _ (by decide) h.2
    · exact heq _ (by decide) h

/-- The alphabet of a base consists of its digits in either case and the underscore. -/
theorem exists_digit_of_continuesBase (hbase : base ∈ [2, 8, 16])
    (h : continuesBase base c = true) :
    c = '_' ∨ ∃ d < base, c = d.digitChar ∨ c = d.digitChar.toUpper := by
  have hall : ∀ n < 128, ∀ base ∈ [2, 8, 16], continuesBase base (Char.ofNat n) = true →
      Char.ofNat n = '_' ∨
        ∃ d < base, Char.ofNat n = d.digitChar ∨ Char.ofNat n = d.digitChar.toUpper := by
    decide +kernel
  have hc := hall c.toNat (toNat_lt_of_continuesBase h) base hbase
  rw [Char.ofNat_toNat] at hc
  exact hc h

theorem exists_digit_of_isDigit (h : c.isDigit = true) : ∃ d < 10, c = d.digitChar := by
  have hall : ∀ n < 128, (Char.ofNat n).isDigit = true → ∃ d < 10, Char.ofNat n = d.digitChar := by
    decide +kernel
  have hhex : continuesBase 16 c = true := by simp [continuesBase, h]
  have hc := hall c.toNat (toNat_lt_of_continuesBase hhex)
  rw [Char.ofNat_toNat] at hc
  exact hc h

theorem exists_digit_of_continuesNumber (h : continuesNumber c = true) :
    c = '_' ∨ ∃ d < 10, c = d.digitChar ∨ c = d.digitChar.toUpper := by
  rw [continuesNumber, Bool.or_eq_true] at h
  rcases h with h | h
  · obtain ⟨d, hd, hc⟩ := exists_digit_of_isDigit h
    exact .inr ⟨d, hd, .inl hc⟩
  · exact .inl (beq_iff_eq.1 h)

theorem base?_eq_some_iff {letter : Char} : base? letter = some base ↔
    letter = 'b' ∧ base = 2 ∨ letter = 'o' ∧ base = 8 ∨ letter = 'x' ∧ base = 16 := by
  unfold base?
  split_ifs with hb ho hx
  · simp [hb, eq_comm]
  · simp [ho, eq_comm]
  · simp [hx, eq_comm]
  · simp [hb, ho, hx]

end LexClass

theorem Numeral.exists_of_forall {p : Char → Bool}
    (hp : ∀ c, p c = true → c = '_' ∨ ∃ d < base, c = d.digitChar ∨ c = d.digitChar.toUpper)
    (htext : ∀ x ∈ text, p x = true) : ∃ digits, Numeral base text digits := by
  induction text with
  | nil => exact ⟨[], .nil⟩
  | cons x text ih =>
    obtain ⟨hx, htext⟩ := List.forall_mem_cons.1 htext
    obtain ⟨digits, h⟩ := ih htext
    rcases hp x hx with rfl | ⟨d, hd, hc⟩
    · exact ⟨digits, .underscore h⟩
    · exact ⟨d :: digits, .digit hd hc h⟩

/-- The literals are the texts of two forms: a mark with characters of the alphabet of its base
behind it, and a digit with decimal digits and underscores behind it. -/
theorem exists_intLiteral_iff : (∃ base digits, IntLiteral text base digits) ↔
    (∃ letter base rest, text = '0' :: letter :: rest ∧ LexClass.base? letter = some base ∧
      rest ≠ [] ∧ ∀ x ∈ rest, LexClass.continuesBase base x = true) ∨
    ∃ c rest, text = c :: rest ∧ c.isDigit = true ∧
      ∀ x ∈ rest, LexClass.continuesNumber x = true := by
  constructor
  · rintro ⟨base, digits, h⟩
    cases h with
    | binary hne h => exact .inl ⟨_, _, _, rfl, rfl, hne, h.forall_mem rfl (by decide)⟩
    | octal hne h => exact .inl ⟨_, _, _, rfl, rfl, hne, h.forall_mem rfl (by decide)⟩
    | hexadecimal hne h => exact .inl ⟨_, _, _, rfl, rfl, hne, h.forall_mem rfl (by decide)⟩
    | decimal hd h =>
      exact .inr ⟨_, _, rfl, (LexClass.isDigit_digitChar hd).1, h.forall_mem rfl (by decide)⟩
  · rintro (⟨letter, base, rest, rfl, hbase, hne, hrest⟩ | ⟨c, rest, rfl, hc, hrest⟩)
    · have hforms := LexClass.base?_eq_some_iff.1 hbase
      have hmem : base ∈ [2, 8, 16] := by
        rcases hforms with ⟨-, rfl⟩ | ⟨-, rfl⟩ | ⟨-, rfl⟩ <;> decide
      obtain ⟨digits, h⟩ := Numeral.exists_of_forall
        (fun c hc => LexClass.exists_digit_of_continuesBase hmem hc) hrest
      -- the letter decides the base
      rcases hforms with ⟨rfl, rfl⟩ | ⟨rfl, rfl⟩ | ⟨rfl, rfl⟩
      · exact ⟨2, digits, .binary hne h⟩
      · exact ⟨8, digits, .octal hne h⟩
      · exact ⟨16, digits, .hexadecimal hne h⟩
    · obtain ⟨d, hd, rfl⟩ := LexClass.exists_digit_of_isDigit hc
      obtain ⟨digits, h⟩ := Numeral.exists_of_forall
        (fun c hc => LexClass.exists_digit_of_continuesNumber hc) hrest
      exact ⟨10, d :: digits, .decimal hd h⟩

/-! ### The source of one literal -/

/-- A source that is an integer literal is one token for its exact value, if it has a digit and the
value has at most 63 bits.  Otherwise the lexer fails at the whole literal. -/
theorem integer_literals_denote_or_fail (source : String)
    (h : IntLiteral source.toList base digits) :
    let span : Span := ⟨0, source.utf8ByteSize⟩
    (digits ≠ [] ∧ numberOf base digits ≤ 0x7fff_ffff_ffff_ffff → ∃ n : Int64,
      n.toInt = numberOf base digits ∧ lex? source = .ok [⟨.int n, span, source⟩]) ∧
    (digits = [] ∨ 0x7fff_ffff_ffff_ffff < numberOf base digits →
      lex? source = .error ⟨span, source⟩) := by
  obtain ⟨c, rest, hsource⟩ := h.exists_cons
  have hsize : byteLength (c :: rest) = source.utf8ByteSize := by rw [← hsource, byteLength_toList]
  have htext : String.ofList (c :: rest) = source := by rw [← hsource, String.ofList_toList]
  rw [hsource] at h
  have hscan := h.scan_eq
  intro span
  constructor
  · rintro ⟨hne, hle⟩
    -- the number fits a word, and is read as it is
    have hfits : FitsWord (numberOf base digits) := by
      unfold FitsWord
      omega
    refine ⟨Int64.ofInt (numberOf base digits), toInt_ofInt_of_fitsWord hfits, ?_⟩
    have hread : LexClass.readInt? base (c :: rest) =
        some (Int64.ofInt (numberOf base digits)) := by
      rw [h.readInt?_eq, if_neg hne, int64?, if_pos hfits]
    have htoken : (LexClass.int base).read? (c :: rest) =
        some (.int (Int64.ofInt (numberOf base digits))) := by
      rw [LexClass.read?, hread, Option.map_some]
    have hscan' : LexClass.scan c (rest ++ []) = some (.int base, rest.length) := by
      rwa [List.append_nil]
    have hlexeme := ofChars_cons_lexeme 0 hscan' rfl (by simp) htoken
    rw [List.append_nil, hsize, htext, Scan.ofChars] at hlexeme
    rw [lex?_eq_ok_iff, hsource, hlexeme]
    rfl
  · intro hbad
    have hread : LexClass.readInt? base (c :: rest) = none := by
      rw [h.readInt?_eq]
      by_cases hne : digits = []
      · exact if_pos hne
      · have hlarge := hbad.resolve_left hne
        rw [if_neg hne, int64?_eq_none_iff, FitsWord]
        omega
    have hfailure : Scan.ofChars 0 (c :: rest) = ⟨[], some ⟨span, source⟩⟩ := by
      rw [Scan.ofChars, hscan]
      simp only [List.take_length, LexClass.read?, hread, Option.map_none, if_neg, reduceCtorEq,
        not_false_eq_true, hsize, htext]
      rfl
    rw [lex?, hsource, hfailure]
    rfl

/-- The largest integer, the number after it, and a literal without digits. -/
theorem literals_at_the_limit :
    (∃ n : Int64, n.toInt = 9223372036854775807 ∧
      lex? "0x7fff_FFFF_ffff_ffff" = .ok [⟨.int n, ⟨0, 21⟩, "0x7fff_FFFF_ffff_ffff"⟩]) ∧
    lex? "9223372036854775808" = .error ⟨⟨0, 19⟩, "9223372036854775808"⟩ ∧
    lex? "0b_" = .error ⟨⟨0, 3⟩, "0b_"⟩ := by
  -- the digits are given one by one, with the underscores that are skipped
  have hlargest : IntLiteral "0x7fff_FFFF_ffff_ffff".toList 16 (7 :: List.replicate 15 15) := by
    have hlist : "0x7fff_FFFF_ffff_ffff".toList = ['0', 'x', '7', 'f', 'f', 'f', '_', 'F', 'F', 'F',
        'F', '_', 'f', 'f', 'f', 'f', '_', 'f', 'f', 'f', 'f'] := by decide +kernel
    rw [hlist]
    refine .hexadecimal (by decide) ?_
    repeat first
      | exact .nil
      | refine .digit (by decide) (by decide) ?_
      | refine .underscore ?_
  have hlarger : IntLiteral "9223372036854775808".toList 10
      [9, 2, 2, 3, 3, 7, 2, 0, 3, 6, 8, 5, 4, 7, 7, 5, 8, 0, 8] := by
    have hlist : "9223372036854775808".toList = Nat.digitChar 9 :: ['2', '2', '3', '3', '7', '2',
        '0', '3', '6', '8', '5', '4', '7', '7', '5', '8', '0', '8'] := by decide +kernel
    rw [hlist]
    refine .decimal (by decide) ?_
    repeat first
      | exact .nil
      | refine .digit (by decide) (by decide) ?_
  have hempty : IntLiteral "0b_".toList 2 [] := by
    have hlist : "0b_".toList = ['0', 'b', '_'] := by decide +kernel
    rw [hlist]
    exact .binary (by decide) (.underscore .nil)
  have hsizes : "0x7fff_FFFF_ffff_ffff".utf8ByteSize = 21 ∧
      "9223372036854775808".utf8ByteSize = 19 ∧ "0b_".utf8ByteSize = 3 := by decide +kernel
  obtain ⟨hread, -⟩ := integer_literals_denote_or_fail _ hlargest
  obtain ⟨-, hlarge⟩ := integer_literals_denote_or_fail _ hlarger
  obtain ⟨-, hnone⟩ := integer_literals_denote_or_fail _ hempty
  rw [hsizes.1] at hread
  rw [hsizes.2.1] at hlarge
  rw [hsizes.2.2] at hnone
  obtain ⟨n, hn, hlex⟩ := hread (by decide)
  exact ⟨⟨n, hn, hlex⟩, hlarge (.inr (by decide)), hnone (.inl rfl)⟩

end PipeLang
