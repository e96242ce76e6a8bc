/-!
# Floats as dyadic numbers

A finite float is a sign together with `mantissa * 2 ^ exponent`; `Dyadic.ofFloat` takes it apart
exactly.  In the other direction `Float.nearestRatio num den` is the float nearest to a quotient
of natural numbers, of two equally near ones the one with the even mantissa.  Both work in exact
integer arithmetic.

`wholeValue?` reads off the integer that a float equals, if it equals one, and `Float.ofInt64` is
the float nearest to an integer.
-/

namespace PipeLang

/-- The magnitude `mantissa * 2 ^ exponent` of a finite float. -/
structure Dyadic where
  /-- Below `2 ^ 53`; at least `2 ^ 52` unless the exponent is the least one. -/
  mantissa : Nat
  /-- At least `-1074`. -/
  exponent : Int
deriving DecidableEq

/-- Whether the sign bit of the float is set. -/
def isNegative (x : Float) : Bool := decide (1 <<< 63 ≤ x.toBits.toNat)

/-- The magnitude of a finite float: the mantissa's leading bit is implicit except at the least
exponent. -/
def Dyadic.ofFloat (x : Float) : Dyadic :=
  let bits : Nat := x.toBits.toNat % 1 <<< 63
  let raised : Nat := bits / 1 <<< 52
  if raised = 0 then ⟨bits, -1074⟩ else ⟨bits % 1 <<< 52 + 1 <<< 52, (raised : Int) - 1075⟩

/-! ### The nearest float -/

/-- The quotient rounded to the nearest natural number, a half to the even neighbour. -/
def roundHalfEven (num den : Nat) : Nat :=
  let floor := num / den
  let twice := 2 * (num % den)
  if twice < den then floor
  else if den < twice then floor + 1
  else floor + floor % 2

/-- `num / den` in units of `2 ^ exponent`, rounded to the nearest whole number of them. -/
def roundAt (num den : Nat) (exponent : Int) : Nat :=
  if 0 ≤ exponent then roundHalfEven num (den <<< exponent.toNat)
  else roundHalfEven (num <<< (-exponent).toNat) den

/-- The exponent at which `num / den` has a mantissa of 53 bits, but not below the least one. -/
def mantissaExponent (num den : Nat) : Int :=
  let guess : Int := (num.log2 : Int) - den.log2 - 52
  let short : Bool :=
    if 0 ≤ guess then decide (num < den <<< (guess.toNat + 52))
    else decide (num <<< (-guess).toNat < den <<< 52)
  max (if short then guess - 1 else guess) (-1074)

/-- The float nearest to `num / den`, for a positive `den`; infinite from halfway beyond the
greatest finite float on.  A mantissa that rounds up to `2 ^ 53` carries into the exponent. -/
def nearestRatio (num den : Nat) : Float :=
  if num = 0 then 0 else
    let exponent := mantissaExponent num den
    let bits := (exponent + 1074).toNat <<< 52 + roundAt num den exponent
    Float.ofBits (min bits (0x7ff <<< 52)).toUInt64

/-! ### Integers -/

/-- The float nearest to an integer, a half to the even neighbour. -/
def floatOfInt (n : Int64) : Float :=
  let size := n.toInt.natAbs.toUInt64.toFloat
  if n < 0 then -size else size

/-- The integer that a float is equal to, if there is one. -/
def wholeValue? (x : Float) : Option Int :=
  if x.isFinite then
    let size := Dyadic.ofFloat x
    let whole? : Option Nat :=
      if 0 ≤ size.exponent then some (size.mantissa <<< size.exponent.toNat)
      else
        let unit := 1 <<< (-size.exponent).toNat
        if size.mantissa % unit = 0 then some (size.mantissa / unit) else none
    whole?.map fun whole => if isNegative x then -(whole : Int) else whole
  else none

end PipeLang
