import PipeLang.Text.Span

/-!
# Expression trees

Programs are lists of expressions, and every node of an expression carries the span of the source
text it was read from.  Infix operators are calls of a symbol: `a %>% b` is the call of `%>%` on
`a` and `b`.

A computed value can be spliced into a tree as an `inline` node.  The tree does not hold the value
itself: it holds a reference, under which the value is kept elsewhere, and the label that stands
for it in print.  So two inline nodes are the same only if they refer to the same splice.

`Expr.same` compares trees node by node, spans included.
-/

namespace PipeLang

/-- The name that stands for the value arriving through a pipe. -/
def placeholder : String := "."

/-- A reference to a value spliced into a tree. -/
structure InlineRef where
  index : Nat
deriving DecidableEq

/-- Where an assignment writes. -/
inductive AssignScope where
  /-- In the scope it stands in, `<-`. -/
  | inner
  /-- In an enclosing scope, `<<-`. -/
  | outer
deriving DecidableEq

/-- A literal. -/
inductive Literal where
  | null
  | bool (b : Bool)
  | int (n : Int64)
  | float (x : Float)
  | str (s : String)
deriving DecidableEq

/-- An expression, each node with its span. -/
inductive Expr where
  | lit (literal : Literal) (span : Span)
  | sym (name : String) (span : Span)
  /-- A call, of an operator or in the form `func(args)`. -/
  | call (func : Expr) (args : List Expr) (span : Span)
  | paren (inner : Expr) (span : Span)
  | block (stmts : List Expr) (span : Span)
  | list (items : List Expr) (span : Span)
  | record (fields : List (String × Expr)) (span : Span)
  | field (target : Expr) (name : String) (span : Span)
  | lambda (params : List String) (body : Expr) (span : Span)
  | ifThen (cond yes : Expr) (span : Span)
  | ifElse (cond yes no : Expr) (span : Span)
  | assign (target value : Expr) (scope : AssignScope) (span : Span)
  /-- A computed value, spliced in. -/
  | inline (label : String) (ref : InlineRef) (span : Span)
deriving Inhabited

namespace Expr

/-- The span of the node. -/
def span : Expr → Span
  | lit _ s | sym _ s | call _ _ s | paren _ s | block _ s | list _ s | record _ s | field _ _ s
  | lambda _ _ s | ifThen _ _ s | ifElse _ _ _ s | assign _ _ _ s | inline _ _ s => s

/-- Whether the expression is a bare symbol of this name. -/
def isSym (name : String) : Expr → Bool
  | sym other _ => other == name
  | _ => false

/-- Whether the expression is the bare placeholder. -/
def isPlaceholder (e : Expr) : Bool := e.isSym placeholder

/-- The name of the callee if the expression is a call of a bare symbol. -/
def callOp? : Expr → Option String
  | call (sym op _) _ _ => some op
  | _ => none

@[simp] theorem isSym_sym (name other : String) (s : Span) :
    (sym other s).isSym name = (other == name) := rfl

@[simp] theorem isPlaceholder_sym (s : Span) : (sym placeholder s).isPlaceholder = true := by
  simp [isPlaceholder]

end Expr

/-! ### Sameness -/

/-- Equal literals; floats are compared as numbers. -/
def Literal.same : Literal → Literal → Bool
  | float x, float y => x == y
  | a, b => a == b

mutual

/-- Whether two trees are the same, spans included; inline nodes by their references. -/
def Expr.same : Expr → Expr → Bool
  | .lit a s, .lit b t => a.same b && s == t
  | .sym a s, .sym b t => a == b && s == t
  | .call f xs s, .call g ys t => f.same g && Expr.sameAll xs ys && s == t
  | .paren a s, .paren b t => a.same b && s == t
  | .block xs s, .block ys t => Expr.sameAll xs ys && s == t
  | .list xs s, .list ys t => Expr.sameAll xs ys && s == t
  | .record xs s, .record ys t => Expr.sameFields xs ys && s == t
  | .field a n s, .field b m t => a.same b && n == m && s == t
  | .lambda p a s, .lambda q b t => p == q && a.same b && s == t
  | .ifThen a b s, .ifThen c d t => a.same c && b.same d && s == t
  | .ifElse a b c s, .ifElse d e f t => a.same d && b.same e && c.same f && s == t
  | .assign a b p s, .assign c d q t => a.same c && b.same d && p == q && s == t
  | .inline _ r s, .inline _ q t => r == q && s == t
  | _, _ => false

/-- Whether two lists of trees are the same, one by one. -/
def Expr.sameAll : List Expr → List Expr → Bool
  | [], [] => true
  | x :: xs, y :: ys => x.same y && Expr.sameAll xs ys
  | _, _ => false

/-- Whether two lists of named trees are the same, one by one. -/
def Expr.sameFields : List (String × Expr) → List (String × Expr) → Bool
  | [], [] => true
  | (m, x) :: xs, (n, y) :: ys => m == n && x.same y && Expr.sameFields xs ys
  | _, _ => false

end

end PipeLang
