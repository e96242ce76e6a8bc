/-!
# 64-bit integers

The integers of the language have 64 bits.  `int64?` is the integer of a whole number, if it is in
range (`int64?_eq_some_iff`, `int64?_eq_none_iff`); `clamp` is the nearest one in any case.
-/

namespace PipeLang

/-- Whether a whole number fits into 64 bits with a sign. -/
def FitsWord (n : Int) : Prop := -9223372036854775808 ≤ n ∧ n ≤ 9223372036854775807

instance (n : Int) : Decidable (FitsWord n) := inferInstanceAs (Decidable (_ ∧ _))

/-- A whole number as a 64-bit integer, if it is in range. -/
def int64? (n : Int) : Option Int64 :=
  if FitsWord n then some (Int64.ofInt n) else none

/-- The nearest 64-bit integer. -/
def clamp (n : Int) : Int64 :=
  if n < -9223372036854775808 then Int64.minValue
  else if 9223372036854775807 < n then Int64.maxValue
  else Int64.ofInt n

theorem fitsWord_toInt (w : Int64) : FitsWord w.toInt := by
  have hlow := Int64.le_toInt w
  have hhigh := Int64.toInt_lt w
  unfold FitsWord
  omega

theorem toInt_ofInt_of_fitsWord {n : Int} (h : FitsWord n) : (Int64.ofInt n).toInt = n := by
  unfold FitsWord at h
  exact Int64.toInt_ofInt_of_le (by omega) (by omega)

theorem int64?_eq_some_iff {n : Int} {w : Int64} : int64? n = some w ↔ w.toInt = n := by
  unfold int64?
  constructor
  · intro h
    split at h
    · next hn =>
      cases h
      exact toInt_ofInt_of_fitsWord hn
    · cases h
  · rintro rfl
    rw [if_pos (fitsWord_toInt w), Int64.ofInt_toInt]

theorem int64?_eq_none_iff {n : Int} : int64? n = none ↔ ¬ FitsWord n := by
  unfold int64?
  split <;> simp_all

@[simp] theorem int64?_toInt (w : Int64) : int64? w.toInt = some w :=
  int64?_eq_some_iff.2 rfl

end PipeLang
