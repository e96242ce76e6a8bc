import PipeLang.Decimal.Binary
import PipeLang.Value.Basic

/-!
# Sameness of values

Data is the same if it has the same parts; numbers compare as numbers, whether whole or not.
Functions made at run time are the same only if they are one and the same function.
-/

namespace PipeLang

mutual

/-- Whether two values are the same. -/
def Value.same : Value → Value → Bool
  | .null, .null => true
  | .bool a, .bool b => a == b
  | .int m, .int n => m == n
  | .float x, .float y => x == y
  | .int n, .float x => floatOfInt n == x
  | .float x, .int n => floatOfInt n == x
  | .str s, .str t => s == t
  | .list xs, .list ys => Value.sameItems xs ys
  | .record xs, .record ys => Value.sameFields xs ys
  | .closure c, .closure d => c.id == d.id
  | .native m, .native n => m == n
  | .special s, .special t => s == t
  | .sequence i _, .sequence j _ => i == j
  | _, _ => false

/-- Whether two lists of values are the same, one by one. -/
def Value.sameItems : List Value → List Value → Bool
  | [], [] => true
  | x :: xs, y :: ys => x.same y && Value.sameItems xs ys
  | _, _ => false

/-- Whether two lists of named values are the same, one by one. -/
def Value.sameFields : List (String × Value) → List (String × Value) → Bool
  | [], [] => true
  | (m, x) :: xs, (n, y) :: ys => m == n && x.same y && Value.sameFields xs ys
  | _, _ => false

end

end PipeLang
