import Mathlib
import PipeLang.Decimal.Binary

/-!
# Floats of whole numbers

The nearest float of an integer of at most 53 bits is that integer.  Its bits are moved up to the
first place of a mantissa (`round_whole`) and survive being packed (`unpack_pack_normal`), so what
the float consists of is known (`unpack_floatOfInt`).  Hence different integers of that size have
different floats (`eq_of_floatOfInt_beq`).
-/

namespace PipeLang

open Float.Model UnpackedFloat

/-! ### Mantissas of 53 bits -/

/-- A mantissa of 53 bits is found again below its leading bit. -/
theorem toNat_leading_append {m : Nat} (hm : 0 < m) (hlog : m.log2 = 52) :
    (1#1 ++ BitVec.ofNat 52 m).toNat = m := by
  obtain ⟨hle, hlt⟩ := (Nat.log2_eq_iff (Nat.ne_of_gt hm)).1 hlog
  rw [BitVec.toNat_append, BitVec.toNat_ofNat, BitVec.toNat_ofNat,
    ← Nat.shiftLeft_add_eq_or_of_lt (Nat.mod_lt _ (by decide))]
  omega

/-- A float with a mantissa of 53 bits is what it was after it has been packed. -/
theorem unpack_pack_normal (s : Sign) {m : Nat} {e : Int} (hm : 0 < m) (hlog : m.log2 = 52)
    (hleast : -1074 ≤ e) (hgreatest : e ≤ 971) :
    (Float.Model.pack (.finite s m e hm)).unpack = .finite s m e hm := by
  obtain ⟨b, hbiased, hb⟩ : ∃ b : Nat, (e + 1023 + 52).toNat = b ∧ (b : Int) - (1023 + 52) = e :=
    ⟨_, rfl, by omega⟩
  have hpack : UnpackedFloat.pack .binary64 (.finite s m e hm) =
      packComponents .binary64 s (BitVec.ofNat 11 b) (BitVec.ofNat 52 m) := by
    have hexponent : (e + (Format.binary64.exponentBias : Nat) +
        (Format.binary64.mantissaBitsWithoutImplicit : Nat)).toNat = b := hbiased
    rw [UnpackedFloat.pack]
    simp only [hexponent, hlog]
    rw [if_neg (by show ¬ 2048 ≤ b + 1; omega)]
    exact if_pos rfl
  have htoNat : (BitVec.ofNat 11 b).toNat = b := by
    rw [BitVec.toNat_ofNat, Nat.mod_eq_of_lt]
    omega
  have hne : ∀ c : BitVec 11, c.toNat ≠ b → BitVec.ofNat 11 b ≠ c := by
    rintro _ h rfl
    exact h htoNat
  show UnpackedFloat.unpack .binary64 (UnpackedFloat.pack .binary64 (.finite s m e hm)) = _
  rw [hpack, UnpackedFloat.unpack]
  simp only [unpackMantissa_packComponents, unpackExponent_packComponents,
    unpackSign_packComponents, Sign.ofBitVec_toBitVec]
  -- neither the exponent of the infinities nor that of zero
  rw [if_neg (hne _ (by show 2047 ≠ b; omega)), if_neg (hne _ (by show 0 ≠ b; omega))]
  simp only [toNat_leading_append hm hlog, htoNat]
  congr

/-! ### Whole numbers -/

theorem log2_shiftLeft {k : Nat} (hk : 0 < k) (i : Nat) : (k <<< i).log2 = k.log2 + i := by
  induction i with
  | zero => rfl
  | succ i ih =>
    rw [Nat.shiftLeft_succ, Nat.log2_two_mul (Nat.ne_of_gt (Nat.shiftLeft_pos_iff.2 hk)), ih]
    rfl

theorem targetExponent_binary64 (t : Int) :
    Format.binary64.targetExponent t = max (t - 53) (-1074) := rfl

/-- A whole number with its leading bit in the first place of a mantissa. -/
def wholeFloat (s : Sign) (k : Nat) (hk : 0 < k) : UnpackedFloat :=
  .finite s (k <<< (52 - k.log2)) (k.log2 - 52) (Nat.shiftLeft_pos_iff.2 hk)

section

variable {k : Nat} (hk : 0 < k) (hbits : k.log2 ≤ 52)

include hk hbits

theorem log2_wholeMantissa : (k <<< (52 - k.log2)).log2 = 52 := by
  rw [log2_shiftLeft hk]
  omega

theorem shiftToTargetExponent_whole :
    shiftToTargetExponent .binary64 (k <<< (52 - k.log2)) (k.log2 - 52) .exact =
      (⟨k <<< (52 - k.log2), false, false⟩, (k.log2 : Int) - 52) := by
  have hnone : (max ((52 : Nat) + 1 + ((k.log2 : Int) - 52) - 53) (-1074) -
      ((k.log2 : Int) - 52)).toNat = 0 := by
    omega
  rw [shiftToTargetExponent, shiftToExponent]
  simp only [targetExponent_binary64, totalExponent, log2_wholeMantissa hk hbits, hnone]
  exact congrArg _ (Int.add_zero _)

/-- A whole number of at most 53 bits is not rounded. -/
theorem round_whole (s : Sign) : UnpackedFloat.round .binary64 s k 0 = wholeFloat s k hk := by
  have hamount : ((0 : Int) - Format.binary64.targetExponent (totalExponent k 0)).toNat =
      52 - k.log2 := by
    rw [targetExponent_binary64, totalExponent]
    omega
  have hexponent : (0 : Int) - ((52 - k.log2 : Nat) : Int) = (k.log2 : Int) - 52 := by omega
  have hmantissa : ExtendedMantissa.roundedMantissa ⟨k <<< (52 - k.log2), false, false⟩ =
      k <<< (52 - k.log2) := rfl
  rw [UnpackedFloat.round, decreaseExponent]
  simp only [hamount, hexponent, roundWithAccuracy, shiftToTargetExponent_whole hk hbits, hmantissa]
  exact dif_neg (Nat.ne_of_gt (Nat.shiftLeft_pos_iff.2 hk))

theorem unpack_pack_whole (s : Sign) :
    (Float.Model.pack (wholeFloat s k hk)).unpack = wholeFloat s k hk :=
  unpack_pack_normal s _ (log2_wholeMantissa hk hbits) (by omega) (by omega)

end

/-- The sign of an integer as that of a float. -/
def signOf (n : Int64) : Sign := if n < 0 then .negative else .positive

/-- A number of at most 53 bits is the float of its sign and its size. -/
theorem unpack_floatOfInt {n : Int64} (hn : 0 < n.toInt.natAbs)
    (hbits : n.toInt.natAbs.log2 ≤ 52) :
    (floatOfInt n).toModel.unpack = wholeFloat (signOf n) n.toInt.natAbs hn := by
  have hsize : n.toInt.natAbs.toUInt64.toFloat.toModel =
      Float.Model.pack (wholeFloat .positive n.toInt.natAbs hn) := by
    have htoNat : n.toInt.natAbs.toUInt64.toNat = n.toInt.natAbs := by
      have hlt := (Nat.log2_lt (Nat.ne_of_gt hn)).1 (Nat.lt_succ_of_le hbits)
      exact Nat.mod_eq_of_lt (by omega)
    -- no bit is lost, so that nothing is rounded
    have hnormal : UnpackedFloat.normalize .binary64 (n.toInt.natAbs : Int) 0 .positive =
        wholeFloat .positive n.toInt.natAbs hn := by
      rw [UnpackedFloat.normalize, Int.compare_eq_gt.2 (by omega)]
      exact round_whole hn hbits .positive
    show Float.Model.pack
      (UnpackedFloat.normalize .binary64 (n.toInt.natAbs.toUInt64.toNat : Int) 0 .positive) = _
    rw [htoNat, hnormal]
  rw [floatOfInt, signOf]
  split
  · show (Float.Model.pack n.toInt.natAbs.toUInt64.toFloat.toModel.unpack.neg).unpack = _
    rw [hsize, unpack_pack_whole hn hbits]
    exact unpack_pack_whole hn hbits .negative
  · rw [hsize]
    exact unpack_pack_whole hn hbits .positive

theorem wholeFloat_injective {s t : Sign} {k l : Nat} {hk : 0 < k} {hl : 0 < l}
    (h : wholeFloat s k hk = wholeFloat t l hl) : s = t ∧ k = l := by
  obtain ⟨hsign, hmantissa, hexponent⟩ := finite.inj h
  have hlog : k.log2 = l.log2 := by omega
  rw [hlog, Nat.shiftLeft_eq, Nat.shiftLeft_eq] at hmantissa
  exact ⟨hsign, Nat.eq_of_mul_eq_mul_right (Nat.two_pow_pos _) hmantissa⟩

theorem signOf_eq_negative_iff {n : Int64} : signOf n = .negative ↔ n.toInt < 0 := by
  have hlt : n < 0 ↔ n.toInt < 0 := Int64.lt_iff_toInt_lt
  rw [signOf, ← hlt]
  split
  · exact iff_of_true rfl ‹_›
  · exact iff_of_false (by rintro ⟨⟩) ‹_›

theorem eq_of_signOf_eq {m n : Int64} (hsign : signOf m = signOf n)
    (hsize : m.toInt.natAbs = n.toInt.natAbs) : m = n := by
  have hneg : m.toInt < 0 ↔ n.toInt < 0 := by
    rw [← signOf_eq_negative_iff, ← signOf_eq_negative_iff, hsign]
  exact Int64.toInt_inj.1 (by omega)

theorem unpack_floatOfInt_zero : (floatOfInt 0).toModel.unpack = .zero .positive := rfl

/-- The float of an integer is no negative zero. -/
theorem unpack_floatOfInt_ne_zero {n : Int64} (hn : n.toInt.natAbs.log2 ≤ 52) :
    (floatOfInt n).toModel.unpack ≠ .zero .negative := by
  rcases Nat.eq_zero_or_pos n.toInt.natAbs with hzero | hpos
  · obtain rfl : n = 0 := Int64.toInt_inj.1 (Int.natAbs_eq_zero.1 hzero)
    rw [unpack_floatOfInt_zero]
    rintro ⟨⟩
  · rw [unpack_floatOfInt hpos hn]
    rintro ⟨⟩

theorem eq_of_unpack_floatOfInt_eq {m n : Int64} (hm : m.toInt.natAbs.log2 ≤ 52)
    (hn : n.toInt.natAbs.log2 ≤ 52)
    (h : (floatOfInt m).toModel.unpack = (floatOfInt n).toModel.unpack) : m = n := by
  have hzero : ∀ {n : Int64}, n.toInt.natAbs = 0 → n = 0 := fun hn =>
    Int64.toInt_inj.1 (Int.natAbs_eq_zero.1 hn)
  rcases Nat.eq_zero_or_pos m.toInt.natAbs with hm0 | hmpos <;>
    rcases Nat.eq_zero_or_pos n.toInt.natAbs with hn0 | hnpos
  · rw [hzero hm0, hzero hn0]
  · rw [hzero hm0, unpack_floatOfInt_zero, unpack_floatOfInt hnpos hn] at h
    cases h
  · rw [hzero hn0, unpack_floatOfInt_zero, unpack_floatOfInt hmpos hm] at h
    cases h
  · rw [unpack_floatOfInt hmpos hm, unpack_floatOfInt hnpos hn] at h
    obtain ⟨hsign, hsize⟩ := wholeFloat_injective h
    exact eq_of_signOf_eq hsign hsize

/-- Integers of at most 53 bits have floats of their own. -/
theorem eq_of_floatOfInt_beq {m n : Int64} (hm : m.toInt.natAbs < 9007199254740992)
    (hn : n.toInt.natAbs < 9007199254740992) (h : (floatOfInt m == floatOfInt n) = true) :
    m = n := by
  have hbits : ∀ {k : Nat}, k < 9007199254740992 → k.log2 ≤ 52 := fun {k} hk => by
    rcases Nat.eq_zero_or_pos k with rfl | hpos
    · decide
    · exact Nat.lt_succ_iff.1 ((Nat.log2_lt (Nat.ne_of_gt hpos)).2 hk)
  obtain ⟨-, -, heq | ⟨-, hzero⟩ | ⟨hzero, -⟩⟩ := (beq_iff_ne_notANumber_and_eq _ _).1 h
  · exact eq_of_unpack_floatOfInt_eq (hbits hm) (hbits hn) heq
  · exact absurd hzero (unpack_floatOfInt_ne_zero (hbits hn))
  · exact absurd hzero (unpack_floatOfInt_ne_zero (hbits hm))

end PipeLang
