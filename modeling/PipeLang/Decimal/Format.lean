import PipeLang.Decimal.Shortest

/-!
# Writing floats

A `FloatFormat` holds the decisions that the ways of writing a float differ in: which exponents
are written positionally, whether a whole number keeps a fraction digit, and how an exponent looks.
`FloatFormat.write` writes any float by such a record.  The four records in use are named for what
they write: values shown to a reader (`shown`), source text (`source`), tokens (`listed`) and JSON
(`json`).
-/

namespace PipeLang

/-- How a float is written. -/
structure FloatFormat where
  /-- The least exponent of the leading digit that is still written positionally; `none` if all
  small numbers are. -/
  leastPositional : Option Int
  /-- The greatest such exponent; `none` if all large numbers are. -/
  greatestPositional : Option Int
  /-- Whether a whole number written positionally ends in `.0`. -/
  wholeFraction : Bool
  /-- Whether a positive exponent carries a plus sign. -/
  plusSign : Bool
  /-- Which of two equally near shortest decimals is written. -/
  tie : Decimal.Tie

namespace FloatFormat

/-- Values shown to a reader: never an exponent, no fraction for a whole number. -/
def shown : FloatFormat := ⟨none, none, false, false, .up⟩

/-- Source text: never an exponent, and a fraction digit so that the number reads as a float. -/
def source : FloatFormat := ⟨none, none, true, false, .up⟩

/-- Tokens in a listing: positional from `1e-4` up to below `1e16`. -/
def listed : FloatFormat := ⟨some (-4), some 15, true, false, .up⟩

/-- JSON numbers: positional from `1e-5` up to below `1e16`. -/
def json : FloatFormat := ⟨some (-5), some 15, true, true, .even⟩

/-- Whether a number whose leading digit has this exponent is written positionally. -/
def isPositional (f : FloatFormat) (magnitude : Int) : Bool :=
  (f.leastPositional.all fun least => decide (least ≤ magnitude)) &&
    f.greatestPositional.all fun greatest => decide (magnitude ≤ greatest)

/-- The digits in place-value notation. -/
def positional (f : FloatFormat) (digits : List Char) (exponent : Int) : List Char :=
  if 0 ≤ exponent then
    digits ++ List.replicate exponent.toNat '0' ++ if f.wholeFraction then ['.', '0'] else []
  else
    let places := (-exponent).toNat
    if digits.length ≤ places then
      '0' :: '.' :: (List.replicate (places - digits.length) '0' ++ digits)
    else
      let whole := digits.length - places
      digits.take whole ++ '.' :: digits.drop whole

/-- The digits with a point after the first one and an exponent. -/
def scientific (f : FloatFormat) (digits : List Char) (magnitude : Int) : List Char :=
  let fraction := digits.drop 1
  let sign := if magnitude < 0 then ['-'] else if f.plusSign then ['+'] else []
  digits.take 1 ++ (if fraction = [] then [] else '.' :: fraction) ++
    'e' :: (sign ++ Nat.toDigits 10 magnitude.natAbs)

/-- A decimal number other than zero. -/
def writeDecimal (f : FloatFormat) (d : Decimal) : List Char :=
  let digits := Nat.toDigits 10 d.digits
  let magnitude := d.exponent + digits.length - 1
  if f.isPositional magnitude then f.positional digits d.exponent
  else f.scientific digits magnitude

/-- Any float; the three that are not finite numbers have names. -/
def write (f : FloatFormat) (x : Float) : String :=
  if x.isNaN then "NaN"
  else
    let size :=
      if x.isInf then ['i', 'n', 'f']
      else if x == 0 then f.positional ['0'] 0
      else f.writeDecimal (Decimal.shortest f.tie x)
    String.ofList (if isNegative x then '-' :: size else size)

end FloatFormat

end PipeLang
