import PipeLang.Builtin.Basic
import PipeLang.Env
import PipeLang.Expr.Basic
import PipeLang.Fields

/-!
# Values

What expressions evaluate to.  Numbers, texts, lists and records are data; closures, builtins and
functional sequences are functions.  A closure and a sequence carry the identity that they were
made with, as that is how they compare.
-/

namespace PipeLang

/-- What a function that is made at run time is told apart by. -/
structure FunctionId where
  index : Nat
deriving DecidableEq

/-- A function of the program, with the environment it was made in. -/
structure Closure where
  id : FunctionId
  params : List String
  body : Expr
  env : Env

/-- A value. -/
inductive Value where
  | null
  | bool (b : Bool)
  | int (n : Int64)
  | float (x : Float)
  | str (s : String)
  | list (items : List Value)
  | record (fields : List (String × Value))
  | closure (c : Closure)
  | native (n : Native)
  | special (s : Special)
  /-- Functions to be applied one after the other. -/
  | sequence (id : FunctionId) (steps : List Value)
deriving Inhabited

/-- The kind of a value. -/
inductive Kind where
  | null | bool | int | float | string | list | record | function | builtin | sequence
deriving DecidableEq

/-- The name of the kind. -/
def Kind.name : Kind → String
  | null => "null"
  | bool => "bool"
  | int => "int"
  | float => "float"
  | string => "string"
  | list => "list"
  | record => "record"
  | function => "function"
  | builtin => "builtin"
  | sequence => "sequence"

/-- The kind of the value. -/
def Value.kind : Value → Kind
  | null => .null
  | bool _ => .bool
  | int _ => .int
  | float _ => .float
  | str _ => .string
  | list _ => .list
  | record _ => .record
  | closure _ => .function
  | native _ | special _ => .builtin
  | sequence .. => .sequence

/-- The value of a literal. -/
def Literal.value : Literal → Value
  | null => .null
  | bool b => .bool b
  | int n => .int n
  | float x => .float x
  | str s => .str s

end PipeLang
