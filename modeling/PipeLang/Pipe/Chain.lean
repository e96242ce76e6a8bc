import PipeLang.Pipe.Kind

/-!
# Chains of pipes

Pipes associate to the left, so a chain of them is a tree that leans to the left.  `Chain.ofPipe`
takes such a tree apart into the expression at its head and the links that follow, in the order in
which they are written.
-/

namespace PipeLang

/-- One pipe of a chain. -/
structure Link where
  kind : PipeKind
  /-- All that stands to the left of the operator. -/
  left : Expr
  right : Expr

/-- A chain of pipes. -/
structure Chain where
  /-- What stands before the first link; none if an operator lacks an operand. -/
  head? : Option Expr
  /-- The links in written order. -/
  links : List Link

namespace Chain

/-- The chain that begins with the links of an expression and goes on with the given ones. -/
def leading (e : Expr) (links : List Link) : Chain :=
  match e.pipeKind?, e with
  | none, e => ⟨some e, links⟩
  | some kind, .call _ [left, right] _ => leading left (⟨kind, left, right⟩ :: links)
  | some _, _ => ⟨none, links⟩

/-- The chain that ends with a pipe of this kind between these sides. -/
def ofPipe (kind : PipeKind) (left right : Expr) : Chain :=
  leading left [⟨kind, left, right⟩]

end Chain

end PipeLang
