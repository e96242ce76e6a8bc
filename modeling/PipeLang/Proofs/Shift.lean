import PipeLang.Parser.Operator

/-!
# Source text that stands further on

`Span.shift k`, `Lexeme.shift k` and `Expr.shift k` move what was read from a source text by `k`
bytes: every span starts `k` bytes later and is as long as before.  Spans of composite expressions
are joined from those of their parts, and joining commutes with moving (`Span.join_shift`).
-/

namespace PipeLang

/-- The span `k` bytes further on. -/
def Span.shift (k : Nat) (s : Span) : Span := ⟨s.offset + k, s.len⟩

@[simp] theorem Span.offset_shift (k : Nat) (s : Span) : (s.shift k).offset = s.offset + k := rfl

@[simp] theorem Span.stop_shift (k : Nat) (s : Span) : (s.shift k).stop = s.stop + k := by
  simp only [stop, shift]
  omega

/-- Spans that are moved by as much join to the joined span, moved. -/
theorem Span.join_shift (k : Nat) (a b : Span) :
    (a.shift k).join (b.shift k) = (a.join b).shift k := by
  simp only [join, stop_shift, offset_shift]
  simp only [shift, mk.injEq]
  omega

/-- The lexeme `k` bytes further on. -/
def Lexeme.shift (k : Nat) (t : Lexeme) : Lexeme := { t with span := t.span.shift k }

theorem Lexeme.shift_zero (t : Lexeme) : t.shift 0 = t := rfl

@[simp] theorem Lexeme.token_shift (k : Nat) (t : Lexeme) : (t.shift k).token = t.token := rfl

@[simp] theorem Lexeme.span_shift (k : Nat) (t : Lexeme) : (t.shift k).span = t.span.shift k := rfl

/-! ### Expressions -/

mutual

/-- The expression with every span `k` bytes further on. -/
def Expr.shift (k : Nat) : Expr → Expr
  | .lit literal s => .lit literal (s.shift k)
  | .sym name s => .sym name (s.shift k)
  | .call func args s => .call (func.shift k) (Expr.shiftAll k args) (s.shift k)
  | .paren inner s => .paren (inner.shift k) (s.shift k)
  | .block stmts s => .block (Expr.shiftAll k stmts) (s.shift k)
  | .list items s => .list (Expr.shiftAll k items) (s.shift k)
  | .record fields s => .record (Expr.shiftFields k fields) (s.shift k)
  | .field target name s => .field (target.shift k) name (s.shift k)
  | .lambda params body s => .lambda params (body.shift k) (s.shift k)
  | .ifThen cond yes s => .ifThen (cond.shift k) (yes.shift k) (s.shift k)
  | .ifElse cond yes no s => .ifElse (cond.shift k) (yes.shift k) (no.shift k) (s.shift k)
  | .assign target value scope s => .assign (target.shift k) (value.shift k) scope (s.shift k)
  | .inline label ref s => .inline label ref (s.shift k)

/-- Each of the expressions `k` bytes further on. -/
def Expr.shiftAll (k : Nat) : List Expr → List Expr
  | [] => []
  | e :: rest => e.shift k :: Expr.shiftAll k rest

/-- Each of the named expressions `k` bytes further on. -/
def Expr.shiftFields (k : Nat) : List (String × Expr) → List (String × Expr)
  | [] => []
  | (name, e) :: rest => (name, e.shift k) :: Expr.shiftFields k rest

end

mutual

/-- To move an expression by nothing leaves it as it is. -/
theorem Expr.shift_zero (e : Expr) : e.shift 0 = e := by
  cases e with
  | lit | sym | inline => rfl
  | call func args s => rw [shift, shift_zero func, shiftAll_zero args]; rfl
  | paren inner s => rw [shift, shift_zero inner]; rfl
  | block stmts s => rw [shift, shiftAll_zero stmts]; rfl
  | list items s => rw [shift, shiftAll_zero items]; rfl
  | record fields s => rw [shift, shiftFields_zero fields]; rfl
  | field target name s => rw [shift, shift_zero target]; rfl
  | lambda params body s => rw [shift, shift_zero body]; rfl
  | ifThen cond yes s => rw [shift, shift_zero cond, shift_zero yes]; rfl
  | ifElse cond yes no s => rw [shift, shift_zero cond, shift_zero yes, shift_zero no]; rfl
  | assign target value scope s => rw [shift, shift_zero target, shift_zero value]; rfl

theorem Expr.shiftAll_zero (es : List Expr) : Expr.shiftAll 0 es = es := by
  cases es with
  | nil => rfl
  | cons e es => rw [shiftAll, shift_zero e, shiftAll_zero es]

theorem Expr.shiftFields_zero (fields : List (String × Expr)) :
    Expr.shiftFields 0 fields = fields := by
  cases fields with
  | nil => rfl
  | cons f fields => rw [shiftFields, shift_zero f.2, shiftFields_zero fields]

end

theorem Expr.shiftAll_eq_map (k : Nat) (es : List Expr) :
    Expr.shiftAll k es = es.map (shift k) := by
  induction es with
  | nil => rfl
  | cons e es ih => rw [shiftAll, ih, List.map_cons]

/-- What is moved with an expression is its span too. -/
@[simp] theorem Expr.span_shift (k : Nat) (e : Expr) : (e.shift k).span = e.span.shift k := by
  cases e <;> rfl

/-- An operator may be applied before its operands are moved, or after. -/
theorem InfixOp.apply_shift (k : Nat) (op : InfixOp) (s : Span) (lhs rhs : Expr) :
    op.apply (s.shift k) (lhs.shift k) (rhs.shift k) = (op.apply s lhs rhs).shift k := by
  unfold apply
  split <;> simp only [Expr.shift, Expr.shiftAll, Expr.span_shift, Span.join_shift]

end PipeLang
