import PipeLang.Value.Basic

/-!
# Evaluation errors

What can go wrong while a program runs, by cause; `EvalError.message` puts it into words.
-/

namespace PipeLang

/-- A value of the wrong type. -/
inductive TypeFault where
  | expected (wanted got : Kind)
  | fieldName (got : Kind)
  | notNumeric (op : String) (left right : Kind)
  | overflow (op : String)
  | negationOverflow
  | notNegatable (got : Kind)
  | unordered (op : String)
  | noLength (got : Kind)
  | outOfRange (position : Int64) (length : Nat)
deriving DecidableEq

/-- What is wrong with a chain of pipes. -/
inductive ChainFault where
  | secondCompound
  | missingOperand
deriving DecidableEq

/-- A state that no program brings about by itself. -/
inductive InternalFault where
  /-- An inline node that refers to no value. -/
  | foreignInline (label : String)
  /-- A link of a chain that is no pipe. -/
  | notPipe
  /-- A chain without any expression. -/
  | emptyChain
  /-- A reference to no deferred value. -/
  | dangling
deriving DecidableEq

/-- Why an evaluation fails. -/
inductive EvalError where
  | unbound (name : String)
  | notFunction (callee : String)
  | type (fault : TypeFault)
  | arity (name : String) (expected : Arity) (got : Nat)
  | divisionByZero
  /-- The program asked for it. -/
  | user (text : String)
  /-- A deferred value that needs itself. -/
  | recursive
  /-- More deferred values within one another than the limit. -/
  | tooDeep (limit : Nat)
  | assignTarget (target : String)
  | chain (fault : ChainFault)
  | internal (fault : InternalFault)
deriving DecidableEq

/-! ### Wording -/

/-- The fault in words. -/
def TypeFault.message : TypeFault → String
  | expected wanted got => "expected " ++ wanted.name ++ ", got " ++ got.name
  | fieldName got => "field name must be a string, got " ++ got.name
  | notNumeric op left right =>
    "non-numeric argument to `" ++ op ++ "`: " ++ left.name ++ " and " ++ right.name
  | overflow op => "integer overflow in `" ++ op ++ "`"
  | negationOverflow => "integer overflow in negation"
  | notNegatable got => "cannot negate " ++ got.name
  | unordered op => "`" ++ op ++ "` on NaN"
  | noLength got => "length of " ++ got.name
  | outOfRange position length =>
    "index " ++ toString position.toInt ++ " out of range for length " ++ toString length

/-- The fault in words. -/
def ChainFault.message : ChainFault → String
  | secondCompound => "only one compound assignment is allowed per chain"
  | missingOperand => "pipe operator needs two operands"

/-- The fault in words. -/
def InternalFault.message : InternalFault → String
  | foreignInline label => "foreign inline value " ++ label
  | notPipe => "unroll reached a non-pipe link"
  | emptyChain => "empty pipe sequence"
  | dangling => "deferred value does not exist"

/-- The text of the message. -/
def EvalError.message : EvalError → String
  | unbound name => "unbound variable: " ++ name
  | notFunction callee => "attempt to apply non-function: " ++ callee
  | type fault => "type error: " ++ fault.message
  | arity name expected got =>
    name ++ ": expected " ++ expected.describe ++ " argument(s), got " ++ toString got
  | divisionByZero => "division by zero"
  | user text => text
  | recursive => "deferred value depends on itself"
  | tooDeep limit =>
    "evaluation nested too deeply: more than " ++ toString limit ++
      " deferred values forced at once"
  | assignTarget target => "invalid assignment target: " ++ target
  | chain fault => "malformed pipe chain: " ++ fault.message
  | internal fault => "internal error: " ++ fault.message

end PipeLang
