import PipeLang.Builtin.Arithmetic
import PipeLang.Value.Printer
import PipeLang.Value.Same

/-!
# Builtins that only compute

What `UnaryOp` and `BinaryOp` answer: a value or an error that depends on the arguments alone.
-/

namespace PipeLang

/-! ### One argument -/

/-- The number of items, of characters, of fields or of steps. -/
def Value.size : Value → Except EvalError Nat
  | null => .ok 0
  | list items => .ok items.length
  | str s => .ok s.length
  | record fields => .ok fields.length
  | sequence _ steps => .ok steps.length
  | v => .error (.type (.noLength v.kind))

/-- The answer to one value. -/
def UnaryOp.answer (op : UnaryOp) (v : Value) : Except EvalError Value :=
  match op with
  | neg => negate v
  | not => v.asBool.map fun b => .bool !b
  | identity => .ok v
  | stop => .error (.user v.show)
  | isNull => .ok (.bool (v.kind == .null))
  | length => v.size.map fun n => .int (Int64.ofNat n)
  | sum => do sumItems (← v.asList)
  | rev => v.asList.map fun items => .list items.reverse
  | names => v.asRecord.map fun fields => .list (fields.names.map .str)
  | functions => v.asSequence.map .list

/-! ### Two arguments -/

/-- The item at a position, counted from one. -/
def nthItem (items : List Value) (position : Int64) : Except EvalError Value :=
  let fault := EvalError.type (.outOfRange position items.length)
  if 1 ≤ position.toInt then
    match items[position.toInt.toNat - 1]? with
    | some v => .ok v
    | none => .error fault
  else .error fault

/-- The whole numbers from the first to the last, down if the last is smaller. -/
def integersBetween (first last : Int) : List Int :=
  if first ≤ last then (List.range ((last - first).toNat + 1)).map fun k : Nat => first + k
  else (List.range ((first - last).toNat + 1)).map fun k : Nat => first - k

/-- The field of a name, `null` if there is none. -/
def fieldOf (fields : Fields Value) (name : String) : Value := (fields.get? name).getD .null

/-- The answer to two values. -/
def BinaryOp.answer (op : BinaryOp) (a b : Value) : Except EvalError Value :=
  match op with
  | add => arithmetic "+" (· + ·) (· + ·) a b
  | sub => arithmetic "-" (· - ·) (· - ·) a b
  | mul => arithmetic "*" (· * ·) (· * ·) a b
  | div => divide a b
  | eq => .ok (.bool (a.same b))
  | ne => .ok (.bool !a.same b)
  | lt => isOrdered "<" Ordering.isLT a b
  | le => isOrdered "<=" Ordering.isLE a b
  | gt => isOrdered ">" Ordering.isGT a b
  | ge => isOrdered ">=" Ordering.isGE a b
  | head => do
    let items ← a.asList
    let count ← b.asInt
    .ok (.list (items.take count.toInt.toNat))
  | nth => do nthItem (← a.asList) (← b.asInt)
  | seq => do
    let first ← a.asInt
    let last ← b.asInt
    .ok (.list ((integersBetween first.toInt last.toInt).map fun n => .int (Int64.ofInt n)))
  | get => match b with
    | .str name => a.asRecord.map fun fields => fieldOf fields name
    | _ => .error (.type (.fieldName b.kind))

end PipeLang
