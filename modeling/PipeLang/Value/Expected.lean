import PipeLang.Decimal.Binary
import PipeLang.EvalError
import PipeLang.Word

/-!
# Values where one kind is expected

Each function here is the content of a value of the expected kind, and an error that names both
kinds for any other value.  Two conversions are made: `null` counts as the empty list, and a whole
float as the integer nearest to it.
-/

namespace PipeLang.Value

/-- The error about a value of another kind. -/
def unexpected (wanted : Kind) (v : Value) : EvalError := .type (.expected wanted v.kind)

/-- The truth value. -/
def asBool : Value → Except EvalError Bool
  | bool b => .ok b
  | v => .error (v.unexpected .bool)

/-- The integer, also of a whole float. -/
def asInt : Value → Except EvalError Int64
  | int n => .ok n
  | float x =>
    match wholeValue? x with
    | some n => .ok (clamp n)
    | none => .error ((float x).unexpected .int)
  | v => .error (v.unexpected .int)

/-- The items, none of `null`. -/
def asList : Value → Except EvalError (List Value)
  | list items => .ok items
  | null => .ok []
  | v => .error (v.unexpected .list)

/-- The fields. -/
def asRecord : Value → Except EvalError (Fields Value)
  | record fields => .ok fields
  | v => .error (v.unexpected .record)

/-- The steps. -/
def asSequence : Value → Except EvalError (List Value)
  | sequence _ steps => .ok steps
  | v => .error (v.unexpected .sequence)

end PipeLang.Value
