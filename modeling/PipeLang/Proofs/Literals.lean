import PipeLang.Token.Literal

/-!
# Numbers in print

Digits in a base up to sixteen have the value they were written for (`positionalValue_toDigits`).
So whole numbers are read back from their printed form (`readInt?_toDigits`), and they end where the
text goes on with nothing that could continue a name (`numberTail_append`).
-/

namespace PipeLang

/-! ### Digits -/

/-- The value of the character that is written for a digit is the digit. -/
theorem digitValue_digitChar {d : Nat} (h : d < 16) : digitValue d.digitChar = d := by
  revert d
  decide

/-- More digits are read on from the value of those before. -/
theorem positionalValue_append (base : Nat) (xs ys : List Char) :
    positionalValue base (xs ++ ys) =
      ys.foldl (fun value c => base * value + digitValue c) (positionalValue base xs) :=
  List.foldl_append

/-- To read the digits of a number gives the number. -/
theorem positionalValue_toDigits {base : Nat} (hbase : 1 < base) (hle : base ≤ 16) (n : Nat) :
    positionalValue base (Nat.toDigits base n) = n := by
  by_cases hn : n < base
  · rw [Nat.toDigits_of_lt_base hn]
    simp [positionalValue, digitValue_digitChar (Nat.lt_of_lt_of_le hn hle)]
  · have hbase' : base ≤ n := Nat.le_of_not_lt hn
    have hsmaller : n / base < n := Nat.div_lt_self (by omega) hbase
    have hdigit : n % base < base := Nat.mod_lt n (by omega)
    rw [Nat.toDigits_of_base_le hbase hbase', positionalValue_append,
      positionalValue_toDigits hbase hle (n / base)]
    simp only [List.foldl_cons, List.foldl_nil,
      digitValue_digitChar (Nat.lt_of_lt_of_le hdigit hle)]
    exact Nat.div_add_mod n base
termination_by n

/-- The digits of a number are characters of digits below the base. -/
theorem exists_digitChar_of_mem_toDigits {base n : Nat} {c : Char} (hbase : 1 < base)
    (hc : c ∈ Nat.toDigits base n) : ∃ d < base, c = d.digitChar := by
  by_cases hn : n < base
  · rw [Nat.toDigits_of_lt_base hn] at hc
    exact ⟨n, hn, List.mem_singleton.1 hc⟩
  · have hbase' : base ≤ n := Nat.le_of_not_lt hn
    have hsmaller : n / base < n := Nat.div_lt_self (by omega) hbase
    have hdigit : n % base < base := Nat.mod_lt n (by omega)
    rw [Nat.toDigits_of_base_le hbase hbase'] at hc
    rcases List.mem_append.1 hc with hc | hc
    · exact exists_digitChar_of_mem_toDigits hbase hc
    · exact ⟨n % base, hdigit, List.mem_singleton.1 hc⟩
termination_by n

namespace LexClass

/-! ### Whole numbers -/

theorem isDigit_digitChar {d : Nat} (h : d < 10) :
    d.digitChar.isDigit = true ∧ d.digitChar ≠ '_' ∧ base? d.digitChar = none := by
  revert d
  decide

/-- The decimal digits of a number are read as it, if it is not too large. -/
theorem readInt?_toDigits (n : Nat) : readInt? 10 (Nat.toDigits 10 n) = int64? n := by
  have hall : dropUnderscores (Nat.toDigits 10 n) = Nat.toDigits 10 n := by
    refine List.filter_eq_self.2 fun c hc => ?_
    obtain ⟨d, hd, rfl⟩ := exists_digitChar_of_mem_toDigits (by decide) hc
    exact bne_iff_ne.2 (isDigit_digitChar hd).2.1
  simp only [readInt?, if_true, hall, if_neg Nat.toDigits_ne_nil,
    positionalValue_toDigits (by decide : 1 < 10) (by decide : 10 ≤ 16)]

/-- The leading characters with a property, if the next one does not have it. -/
theorem run_append {p : Char → Bool} {text rest : List Char} (h : ∀ c ∈ text, p c = true)
    (hrest : ∀ c ∈ rest.head?, p c = false) : run p (text ++ rest) = text.length := by
  have hnone : rest.takeWhile p = [] := by
    cases rest with
    | nil => rfl
    | cons c rest => exact List.takeWhile_cons_of_neg (by simp [hrest c rfl])
  rw [run, List.takeWhile_append_of_pos h, hnone, List.append_nil]

/-- A character that continues no name continues no number either. -/
theorem of_not_continuesName {c : Char} (h : continuesName c = false) :
    continuesNumber c = false ∧ c ≠ '.' ∧ c ≠ 'e' ∧ c ≠ 'E' ∧ base? c = none := by
  have hne : ∀ d, continuesName d = true → c ≠ d := by
    rintro d hd rfl
    rw [h] at hd
    cases hd
  refine ⟨?_, hne _ (by decide), hne _ (by decide), hne _ (by decide), ?_⟩
  · simp only [continuesName, Char.isAlphanum, Bool.or_eq_false_iff] at h
    simp only [continuesNumber, h, Bool.or_self]
  · rw [base?, if_neg (hne _ (by decide)), if_neg (hne _ (by decide)), if_neg (hne _ (by decide))]

/-- A number in print reaches as far as its digits, if what follows continues no name. -/
theorem numberTail_append {c : Char} {digits rest : List Char}
    (hdigits : ∀ x ∈ digits, ∃ d < 10, x = d.digitChar)
    (hrest : ∀ x ∈ rest.head?, continuesName x = false) :
    numberTail c (digits ++ rest) = (int 10, digits.length) := by
  -- the digits are taken as far as they go, and nothing after them belongs to a number
  have hrun : run continuesNumber (digits ++ rest) = digits.length := by
    refine run_append (fun x hx => ?_) fun x hx => (of_not_continuesName (hrest x hx)).1
    obtain ⟨d, hd, rfl⟩ := hdigits x hx
    simp [continuesNumber, (isDigit_digitChar hd).1]
  have hfraction : fractionPart rest = 0 := by
    rw [fractionPart]
    rintro x tail rfl
    exact absurd rfl (of_not_continuesName (hrest '.' rfl)).2.1
  have hexponent : exponentPart rest = 0 := by
    cases rest with
    | nil => rfl
    | cons x rest =>
      obtain ⟨-, -, he, hE, -⟩ := of_not_continuesName (hrest x rfl)
      simp only [exponentPart, he, hE, or_self, if_false]
  have hdecimal : decimalTail (digits ++ rest) = (int 10, digits.length) := by
    simp only [decimalTail, hrun, List.drop_left, hfraction, Nat.add_zero, hexponent, if_true]
  have hbase : ∀ x ∈ (digits ++ rest).head?, base? x = none := by
    intro x hx
    cases digits with
    | nil => exact (of_not_continuesName (hrest x hx)).2.2.2.2
    | cons y digits =>
      obtain ⟨d, hd, rfl⟩ := hdigits y List.mem_cons_self
      cases hx
      exact (isDigit_digitChar hd).2.2
  rw [← hdecimal]
  cases htext : digits ++ rest with
  | nil => rfl
  | cons x text =>
    simp only [numberTail, hbase x (by rw [htext]; rfl)]

end LexClass

end PipeLang
