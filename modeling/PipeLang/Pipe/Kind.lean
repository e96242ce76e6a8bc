import PipeLang.Builtin.Basic
import PipeLang.Expr.Basic

/-!
# Kinds of pipes

A pipe is a call of a pipe operator.  Its kind says which step its right side becomes; the two
standard operators differ only in the evaluation that they ask for.
-/

namespace PipeLang

/-- What a pipe does with its right side. -/
inductive PipeKind where
  /-- Call it on the value that arrives. -/
  | standard
  /-- The same, and assign the end of the chain to the left side. -/
  | compound
  /-- Call it, and pass on the value that arrives. -/
  | tee
  /-- Evaluate it among the fields of the record that arrives. -/
  | dollar
deriving DecidableEq

/-- The kind of an operator. -/
def PipeOp.kind : PipeOp → PipeKind
  | standard | eager => .standard
  | compound => .compound
  | tee => .tee
  | dollar => .dollar

/-- Whether the operator asks for evaluation on demand. -/
def PipeOp.isLazy : PipeOp → Bool
  | eager => false
  | _ => true

/-- The operator of a name. -/
def PipeOp.ofName? (name : String) : Option PipeOp := all.find? fun op => op.name == name

/-- The kind of pipe that an expression is, if it is a call of a pipe operator. -/
def Expr.pipeKind? (e : Expr) : Option PipeKind :=
  (e.callOp?.bind PipeOp.ofName?).map PipeOp.kind

theorem PipeOp.ofName?_name (op : PipeOp) : ofName? op.name = some op := by
  cases op <;> rfl

theorem PipeOp.ofName?_eq_some_iff {name : String} {op : PipeOp} :
    ofName? name = some op ↔ name = op.name := by
  constructor
  · intro h
    have := List.find?_some h
    exact (beq_iff_eq.1 this).symm
  · rintro rfl
    exact ofName?_name op

end PipeLang
