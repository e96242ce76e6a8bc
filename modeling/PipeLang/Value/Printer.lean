import PipeLang.Decimal.Format
import PipeLang.Text.Quoted
import PipeLang.Value.Basic

/-!
# Values in print

`Value.show` is the text of a value as a program prints it.  A text stands for itself; inside of a
list or a record it is quoted, so that there the items can be told apart.
-/

namespace PipeLang

mutual

/-- The value inside of another one. -/
def Value.showItem : Value → String
  | .null => "null"
  | .bool b => if b then "true" else "false"
  | .int n => toString n.toInt
  | .float x => FloatFormat.shown.write x
  | .str s => Text.quote s
  | .list items => "[" ++ ", ".intercalate (Value.showItems items) ++ "]"
  | .record fields => "\x7b" ++ ", ".intercalate (Value.showFields fields) ++ "\x7d"
  | .closure c => "<function(" ++ ", ".intercalate c.params ++ ")>"
  | .native n => "<builtin " ++ n.name ++ ">"
  | .special s => "<builtin " ++ s.name ++ ">"
  | .sequence _ steps => "<sequence of " ++ toString steps.length ++ ">"

/-- Each of the values inside of another one. -/
def Value.showItems : List Value → List String
  | [] => []
  | v :: rest => v.showItem :: Value.showItems rest

/-- Each of the named values, its name and a colon before it. -/
def Value.showFields : List (String × Value) → List String
  | [] => []
  | (name, v) :: rest => (name ++ ": " ++ v.showItem) :: Value.showFields rest

end

/-- The text of the value. -/
def Value.show : Value → String
  | .str s => s
  | v => v.showItem

theorem Value.showItems_eq_map (vs : List Value) : Value.showItems vs = vs.map Value.showItem := by
  induction vs with
  | nil => simp [Value.showItems]
  | cons v rest ih => simp [Value.showItems, ih]

end PipeLang
