import PipeLang.Value.Expected

/-!
# Arithmetic and comparison

Two integers are computed with exactly, and a result that does not fit into 64 bits is an error.
Where a float takes part, both operands are floats.  Texts compare by their characters.
-/

namespace PipeLang

/-- Two numbers of one kind. -/
inductive Operands where
  | ints (x y : Int64)
  | floats (x y : Float)

namespace Operands

/-- The operands of an operator; the integer beside a float becomes one. -/
def ofValues (op : String) : Value → Value → Except EvalError Operands
  | .int x, .int y => .ok (ints x y)
  | .int x, .float y => .ok (floats (floatOfInt x) y)
  | .float x, .int y => .ok (floats x (floatOfInt y))
  | .float x, .float y => .ok (floats x y)
  | a, b => .error (.type (.notNumeric op a.kind b.kind))

end Operands

/-- An integer as a value, if it is in range. -/
def exact (fault : TypeFault) (n : Int) : Except EvalError Value :=
  match int64? n with
  | some w => .ok (.int w)
  | none => .error (.type fault)

/-- An operation on two numbers, given on integers and on floats. -/
def arithmetic (op : String) (onInts : Int → Int → Int) (onFloats : Float → Float → Float)
    (a b : Value) : Except EvalError Value := do
  match ← Operands.ofValues op a b with
  | .ints x y => exact (.overflow op) (onInts x.toInt y.toInt)
  | .floats x y => .ok (.float (onFloats x y))

/-- The quotient; of two integers toward zero. -/
def divide (a b : Value) : Except EvalError Value := do
  match ← Operands.ofValues "/" a b with
  | .ints x y =>
    if y = 0 then .error .divisionByZero else exact (.overflow "/") (x.toInt.tdiv y.toInt)
  | .floats x y => .ok (.float (x / y))

/-- The number with the other sign. -/
def negate : Value → Except EvalError Value
  | .int n => exact .negationOverflow (-n.toInt)
  | .float x => .ok (.float (-x))
  | v => .error (.type (.notNegatable v.kind))

/-- The sum of the items, from the left. -/
def sumItems (items : List Value) : Except EvalError Value :=
  items.foldlM (arithmetic "sum" (· + ·) (· + ·)) (.int 0)

/-! ### Comparison -/

/-- How two numbers or two texts compare. -/
def compareValues (op : String) : Value → Value → Except EvalError Ordering
  | .str s, .str t => .ok (if s < t then .lt else if s = t then .eq else .gt)
  | a, b => do
    match ← Operands.ofValues op a b with
    | .ints x y => .ok (if x < y then .lt else if x = y then .eq else .gt)
    | .floats x y =>
      if x < y then .ok .lt
      else if x == y then .ok .eq
      else if y < x then .ok .gt
      else .error (.type (.unordered op))

/-- Whether two values compare as the operator wants. -/
def isOrdered (op : String) (wanted : Ordering → Bool) (a b : Value) : Except EvalError Value :=
  (compareValues op a b).map fun order => .bool (wanted order)

end PipeLang
