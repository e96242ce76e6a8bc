/-!
# Builtins

The functions that every program starts with, by what they take: evaluated arguments (`Native`) or
the argument expressions themselves (`Special`).  Natives whose answer depends on one or two
argument values alone are grouped as `UnaryOp` and `BinaryOp`.
-/

namespace PipeLang

/-- How many arguments a function takes. -/
inductive Arity where
  | exactly (count : Nat)
  | atLeast (count : Nat)
deriving DecidableEq

namespace Arity

/-- Whether this many arguments will do. -/
def accepts (got : Nat) : Arity → Bool
  | exactly count => got == count
  | atLeast count => decide (count ≤ got)

/-- The arity in words. -/
def describe : Arity → String
  | exactly count => toString count
  | atLeast count => "at least " ++ toString count

end Arity

/-- A function of one value. -/
inductive UnaryOp where
  | neg | not | identity | stop | isNull | length | sum | rev | names | functions
deriving DecidableEq

/-- A function of two values. -/
inductive BinaryOp where
  | add | sub | mul | div
  | eq | ne | lt | le | gt | ge
  | head | nth | seq | get
deriving DecidableEq

/-- A builtin that takes evaluated arguments. -/
inductive Native where
  | unary (op : UnaryOp)
  | binary (op : BinaryOp)
  /-- Any number of values as one text. -/
  | paste
  /-- Write a value out. -/
  | print
  /-- A function on each item of a list. -/
  | map
  /-- The items of a list that a predicate holds of. -/
  | filter
  /-- A list of functions, each on the result of the one before. -/
  | freduce
deriving DecidableEq

/-- The pipe operators. -/
inductive PipeOp where
  | standard
  | eager
  | compound
  | tee
  | dollar
deriving DecidableEq

/-- A builtin that takes its argument expressions as they stand. -/
inductive Special where
  /-- Logical and, the right side only if needed. -/
  | and
  /-- Logical or, the right side only if needed. -/
  | or
  /-- An expression with the fields of a record in scope. -/
  | within
  | pipe (op : PipeOp)
deriving DecidableEq

/-! ### Names -/

/-- The name of the function. -/
def UnaryOp.name : UnaryOp → String
  | neg => "neg"
  | not => "!"
  | identity => "identity"
  | stop => "stop"
  | isNull => "is_null"
  | length => "length"
  | sum => "sum"
  | rev => "rev"
  | names => "names"
  | functions => "functions"

/-- The name of the function. -/
def BinaryOp.name : BinaryOp → String
  | add => "+"
  | sub => "-"
  | mul => "*"
  | div => "/"
  | eq => "=="
  | ne => "!="
  | lt => "<"
  | le => "<="
  | gt => ">"
  | ge => ">="
  | head => "head"
  | nth => "nth"
  | seq => "seq"
  | get => "get"

/-- The name of the builtin. -/
def Native.name : Native → String
  | unary op => op.name
  | binary op => op.name
  | paste => "paste"
  | print => "print"
  | map => "map"
  | filter => "filter"
  | freduce => "freduce"

/-- The name of the operator. -/
def PipeOp.name : PipeOp → String
  | standard => "%>%"
  | eager => "%!>%"
  | compound => "%<>%"
  | tee => "%T>%"
  | dollar => "%$%"

/-- The name of the builtin. -/
def Special.name : Special → String
  | and => "&&"
  | or => "||"
  | within => "with"
  | pipe op => op.name

/-! ### Arguments and listings -/

/-- How many arguments the builtin takes. -/
def Native.arity : Native → Arity
  | unary _ | print => .exactly 1
  | binary _ | map | filter | freduce => .exactly 2
  | paste => .atLeast 1

/-- The pipe operators. -/
def PipeOp.all : List PipeOp := [standard, eager, compound, tee, dollar]

/-- The builtins that take evaluated arguments. -/
def Native.all : List Native :=
  [.neg, .not, .identity, .stop, .isNull, .length, .sum, .rev, .names, .functions].map unary ++
    [.add, .sub, .mul, .div, .eq, .ne, .lt, .le, .gt, .ge, .head, .nth, .seq, .get].map binary ++
      [paste, print, map, filter, freduce]

/-- The builtins that take their argument expressions. -/
def Special.all : List Special := [and, or, within] ++ PipeOp.all.map pipe

theorem Native.mem_all (n : Native) : n ∈ all := by
  rcases n with op | op | _ | _ | _ | _ | _
  case unary => cases op <;> simp [all]
  case binary => cases op <;> simp [all]
  all_goals simp [all]

theorem Special.mem_all (s : Special) : s ∈ all := by
  rcases s with _ | _ | _ | op
  case pipe => cases op <;> decide
  all_goals simp [all]

end PipeLang
