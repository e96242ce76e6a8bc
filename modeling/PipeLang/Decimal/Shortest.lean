import PipeLang.Decimal.Binary

/-!
# The shortest decimal that reads back

`shortest` gives, for a positive finite float, the decimal with the fewest digits among those
that round to it, and of these the nearest to it.  For each number of digits, from one to
seventeen, the decimals of that length form a grid around the float, and if any grid point lies in
the interval of reals that round to the float, then one of the float's two neighbours on the grid
does; so only these two are tried.  The arithmetic is exact.
-/

namespace PipeLang

/-- The decimal `digits * 10 ^ exponent`. -/
structure Decimal where
  digits : Nat
  exponent : Int
deriving DecidableEq

namespace Decimal

/-- What happens when two decimals of the same length are equally near. -/
inductive Tie where
  /-- The larger one is taken. -/
  | up
  /-- The one with the even last digit is taken. -/
  | even
deriving DecidableEq

/-- The power of ten with this exponent. -/
def tenTo (exponent : Nat) : Nat := Nat.pow 10 exponent

/-- A float between the ends of the interval of reals that round to it, all over one
denominator. -/
structure Interval where
  low : Nat
  value : Nat
  high : Nat
  den : Nat
  /-- Whether the ends themselves round to the float. -/
  closed : Bool

/-- The interval of a float: half a unit of the mantissa to either side, a quarter below when the
mantissa is the least of its exponent.  In units of a quarter of the mantissa's last place. -/
def Interval.ofDyadic (x : Dyadic) : Interval :=
  let below := if x.mantissa = 1 <<< 52 ∧ -1074 < x.exponent then 1 else 2
  let shift := x.exponent - 2
  let up := shift.toNat
  let value := 4 * x.mantissa
  ⟨(value - below) <<< up, value <<< up, (value + 2) <<< up, 1 <<< (-shift).toNat,
    x.mantissa % 2 = 0⟩

/-- The interval in units of `10 ^ exponent`. -/
def Interval.scale (i : Interval) (exponent : Int) : Interval :=
  let up := tenTo (-exponent).toNat
  ⟨i.low * up, i.value * up, i.high * up, i.den * tenTo exponent.toNat, i.closed⟩

/-- Whether a whole number of units lies in the interval. -/
def Interval.admits (i : Interval) (n : Nat) : Bool :=
  if i.closed then decide (i.low ≤ n * i.den) && decide (n * i.den ≤ i.high)
  else decide (i.low < n * i.den) && decide (n * i.den < i.high)

/-- The neighbour of the float among the whole numbers that rounds to it, the nearer one if both
do. -/
def Interval.nearest? (i : Interval) (tie : Tie) : Option Nat :=
  let floor := i.value / i.den
  match i.admits floor, i.admits (floor + 1) with
  | false, false => none
  | true, false => some floor
  | false, true => some (floor + 1)
  | true, true =>
    let twice := 2 * (i.value % i.den)
    if twice < i.den then some floor
    else if i.den < twice then some (floor + 1)
    else match tie with
      | .up => some (floor + 1)
      | .even => some (floor + floor % 2)

/-- How many decimal digits a number has, counting one for zero. -/
def digitCount (n : Nat) : Nat := (Nat.toDigits 10 n).length

/-- The exponent of the leading digit of the interval's float. -/
def Interval.magnitude (i : Interval) : Int :=
  let guess : Int := (digitCount i.value : Int) - digitCount i.den
  let reached : Bool :=
    if 0 ≤ guess then decide (i.den * tenTo guess.toNat ≤ i.value)
    else decide (i.den ≤ i.value * tenTo (-guess).toNat)
  if reached then guess else guess - 1

/-- The decimal without the zeros at its end; at most `fuel` of them are dropped. -/
def dropZeros : Nat → Decimal → Decimal
  | 0, d => d
  | fuel + 1, d =>
    if d.digits % 10 = 0 then dropZeros fuel ⟨d.digits / 10, d.exponent + 1⟩ else d

/-- The first length, from `length` on, at which a decimal reads back; `fuel` lengths are
tried. -/
def search (i : Interval) (tie : Tie) (magnitude : Int) (length : Nat) : Nat → Decimal
  | 0 => ⟨i.value / i.den, 0⟩
  | fuel + 1 =>
    let exponent := magnitude - length + 1
    match (i.scale exponent).nearest? tie with
    | some digits => dropZeros (digitCount digits) ⟨digits, exponent⟩
    | none => search i tie magnitude (length + 1) fuel

/-- The shortest decimal that reads back as the positive finite float `x`.  Seventeen digits
always suffice. -/
def shortest (tie : Tie) (x : Float) : Decimal :=
  let i := Interval.ofDyadic (Dyadic.ofFloat x)
  search i tie i.magnitude 1 17

end Decimal

end PipeLang
