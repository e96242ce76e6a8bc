import PipeLang.Decimal.Shortest

/-!
# Reading decimals

`Decimal.toFloat` is the float nearest to a decimal.  Its two bounds keep the exact arithmetic
small: a decimal of `n` digits lies below `10 ^ (exponent + n)`, so beyond `10 ^ 310` it is
infinite and below `10 ^ -326` it is zero, whatever its digits are.
-/

namespace PipeLang

/-- The value of a digit in a base up to sixteen; letters in either case, `0` for anything that is
not a digit. -/
def digitValue (c : Char) : Nat :=
  if c.isDigit then c.toNat - '0'.toNat
  else if 'a' ≤ c ∧ c ≤ 'f' then c.toNat - 'a'.toNat + 10
  else if 'A' ≤ c ∧ c ≤ 'F' then c.toNat - 'A'.toNat + 10
  else 0

/-- The positional value of a string of digits. -/
def positionalValue (base : Nat) (digits : List Char) : Nat :=
  digits.foldl (fun value c => base * value + digitValue c) 0

/-- The float nearest to a decimal, of two equally near ones the one with the even mantissa. -/
def Decimal.toFloat (d : Decimal) : Float :=
  if d.digits = 0 then 0
  else
    let top : Int := d.exponent + digitCount d.digits
    if 310 < top then nearestRatio (tenTo 310) 1
    else if top < -326 then 0
    else if 0 ≤ d.exponent then nearestRatio (d.digits * tenTo d.exponent.toNat) 1
    else nearestRatio d.digits (tenTo (-d.exponent).toNat)

end PipeLang
