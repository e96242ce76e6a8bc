import PipeLang.Proofs.RoundTrip
import PipeLang.Proofs.Targets

/-!
# Operands that fit into their places

The printer puts no parentheses around operands, so what it writes is read back only if every
operand binds as tightly as its place asks for (`Expr.Fits`).  Two numbers say how tightly an
expression binds: at its start its `power`, that of its loosest operator, and at its end its
`reach`, the power from which on an operator after it would be taken by its last operand.  An
operator's left operand must not reach the operator, and its right operand must have the power that
the operator asks for.

Trees that fit print into their tokens (`Expr.Fits.prints`).  The parser gives no others
(`Parser.fits_of_program`).
-/

namespace PipeLang

/-! ### Binding at either end -/

/-- The binding power of an operator that is written between its operands. -/
def operatorPower (op : String) : Nat :=
  ((InfixOp.ofToken? (operatorToken op)).map InfixOp.left).getD Power.sign

namespace Expr

/-- The binding power of the operator of an expression; that of a sign if the expression is no
operator with two operands. -/
def power : Expr → Nat
  | call (sym op _) [_, _] _ => if isOperator op then operatorPower op else Power.sign
  | assign .. => Power.assign
  | _ => Power.sign

/-- The binding power from which on an operator after the expression is taken by its last
operand. -/
def reach : Expr → Nat
  | call (sym op _) [_, rhs] _ =>
    if isOperator op then min (operatorPower op + 1) rhs.reach else Power.sign
  | call (sym op _) [operand] _ => if (sign? op).isSome then operand.reach else Power.sign
  | assign _ value _ _ => min Power.assign value.reach
  | lambda .. | ifThen .. | ifElse .. => Power.assign
  | _ => Power.sign

/-- Whether an alternative after the expression belongs to a conditional at its end. -/
def endsThen : Expr → Bool
  | call (sym op _) [_, rhs] _ => isOperator op && rhs.endsThen
  | call (sym op _) [operand] _ => (sign? op).isSome && operand.endsThen
  | assign _ value _ _ => value.endsThen
  | lambda _ body _ => body.endsThen
  | ifThen .. => true
  | ifElse _ _ no _ => no.endsThen
  | _ => false

/-- Whether arguments and fields after the expression apply to the whole of it. -/
def takesPostfix : Expr → Bool
  | call (sym op _) [_, _] _ => !isOperator op
  | call (sym op _) [_] _ => (sign? op).isNone
  | assign .. | lambda .. | ifThen .. | ifElse .. => false
  | _ => true

end Expr

namespace InfixOp

variable {t : Token} {op : InfixOp} (ht : ofToken? t = some op)

include ht

/-- Operators bind looser than signs, and no looser than assignments. -/
theorem bounds_of_ofToken? : Power.assign ≤ op.left ∧ op.left < Power.sign ∧
    op.left ≤ op.right ∧ op.right ≤ Power.sign := by
  cases t
  all_goals cases ht
  all_goals simp [leftCall, Power.assign, Power.disjunction, Power.conjunction, Power.comparison,
    Power.sum, Power.product, Power.special, Power.sign]

theorem assign_of_ofToken? {scope : AssignScope} (hform : op.form = .assign scope) :
    op.left = Power.assign ∧ op.right = Power.assign := by
  cases t
  all_goals cases ht
  all_goals cases hform
  all_goals exact ⟨rfl, rfl⟩

variable (hspecial : ∀ name, t = .special name → IsSpecial name)

include hspecial

theorem call_of_ofToken? {name : String} (hform : op.form = .call name) :
    isOperator name = true ∧ operatorPower name = op.left ∧ op.right = op.left + 1 := by
  cases t
  case special other =>
    cases ht
    cases hform
    have hname := hspecial name rfl
    refine ⟨isOperator_of_isSpecial hname, ?_, rfl⟩
    rw [operatorPower, operatorToken_of_isSpecial hname]
    rfl
  all_goals cases ht
  all_goals cases hform
  all_goals exact ⟨by decide, by decide, rfl⟩

/-- An operator binds on its left, and its right operand and what is after it on its right. -/
theorem facts_of_apply (s : Span) (lhs rhs : Expr) : (op.apply s lhs rhs).power = op.left ∧
    (op.apply s lhs rhs).reach = min op.right rhs.reach ∧
    (op.apply s lhs rhs).endsThen = rhs.endsThen ∧
    (op.apply s lhs rhs).takesPostfix = false := by
  rw [apply]
  split
  · next name hform =>
    obtain ⟨hname, hpower, hright⟩ := call_of_ofToken? ht hspecial hform
    simp only [Expr.power, Expr.reach, Expr.endsThen, Expr.takesPostfix, hname, hpower, hright,
      if_true, Bool.true_and, Bool.not_true, and_self]
  · next scope hform =>
    obtain ⟨hleft, hright⟩ := assign_of_ofToken? ht hform
    simp only [Expr.power, Expr.reach, Expr.endsThen, Expr.takesPostfix, hleft, hright, and_self]

end InfixOp

namespace Expr

variable {e f : Expr} {es : List Expr} {s s' : Span} {name : String}

theorem facts_of_sign {t : Token} (ht : Start.ofToken? t = some (.sign name)) (e : Expr)
    (s s' : Span) : (call (sym name s') [e] s).power = Power.sign ∧
      (call (sym name s') [e] s).reach = e.reach ∧
      (call (sym name s') [e] s).endsThen = e.endsThen ∧
      (call (sym name s') [e] s).takesPostfix = false := by
  have hsign : (sign? name).isSome = true := by
    cases t
    all_goals cases ht
    all_goals decide
  simp only [power, reach, endsThen, takesPostfix, hsign, if_true, Bool.true_and]
  exact ⟨trivial, trivial, trivial, by rw [Option.isNone_eq_false_iff]; exact hsign⟩

theorem facts_of_call (hplain : IsPlainCallee f) (es : List Expr) (s : Span) :
    (call f es s).power = Power.sign ∧ (call f es s).reach = Power.sign ∧
      (call f es s).endsThen = false ∧ (call f es s).takesPostfix = true := by
  cases f
  case sym name s' =>
    obtain ⟨hop, hsign⟩ := hplain
    rcases es with _ | ⟨a, _ | ⟨b, _ | ⟨c, more⟩⟩⟩
    all_goals simp [power, reach, endsThen, takesPostfix, hop, hsign]
  all_goals simp [power, reach, endsThen, takesPostfix]

/-- What takes arguments and fields ends with a token of its own. -/
theorem facts_of_takesPostfix (h : e.takesPostfix = true) :
    e.reach = Power.sign ∧ e.endsThen = false := by
  unfold takesPostfix at h
  unfold reach endsThen
  split at h <;> simp_all

/-- No operator binds looser than an assignment. -/
theorem assign_le_power (e : Expr) : Power.assign ≤ e.power := by
  have hop : ∀ op, Power.assign ≤ operatorPower op := by
    intro op
    unfold operatorPower
    cases h : InfixOp.ofToken? (operatorToken op) with
    | none => decide
    | some infixOp => exact (InfixOp.bounds_of_ofToken? h).1
  unfold power
  split
  · split
    · exact hop _
    · decide
  · exact Nat.le_refl _
  · decide

/-- Nothing is taken from an expression at its start that its end would not take. -/
theorem le_power_of_lt_reach {n : Nat} (h : n < e.reach) (hn : n < Power.sign) : n ≤ e.power := by
  unfold power
  split
  · next op s' lhs rhs s'' =>
    rw [reach] at h
    by_cases hop : isOperator op = true
    · rw [if_pos hop] at h ⊢
      omega
    · rw [if_neg hop]
      exact Nat.le_of_lt hn
  · rw [reach] at h
    omega
  · exact Nat.le_of_lt hn

end Expr

/-! ### Trees that fit -/

/-- The expression is one that the parser can give: its names and literals can be spelled, and every
operand binds as tightly as its place asks for. -/
inductive Expr.Fits : Expr → Prop
  | lit {literal : Literal} {s : Span} (hfloat : ∀ x, literal ≠ .float x)
      (hint : ∀ n, literal = .int n → 0 ≤ n.toInt) : Fits (.lit literal s)
  | sym {name : String} {s : Span} (hname : IsSymbol name) (hneg : name ≠ "neg") :
      Fits (.sym name s)
  | operator {t : Token} {op : InfixOp} {s : Span} {lhs rhs e : Expr}
      (ht : InfixOp.ofToken? t = some op) (hspecial : ∀ name, t = .special name → IsSpecial name)
      (he : e = op.apply s lhs rhs) (hlhs : Fits lhs) (hrhs : Fits rhs)
      (hleft : op.left < lhs.reach) (hright : op.right ≤ rhs.power) : Fits e
  | sign {t : Token} {name : String} {s s' : Span} {e : Expr}
      (ht : Start.ofToken? t = some (.sign name)) (he : Fits e) (hpower : Power.sign ≤ e.power) :
      Fits (.call (.sym name s') [e] s)
  | call {f : Expr} {es : List Expr} {s : Span} (hplain : IsPlainCallee f)
      (hclosed : f.takesPostfix = true) (hf : Fits f) (hes : ∀ e ∈ es, Fits e) :
      Fits (.call f es s)
  | paren {e : Expr} {s : Span} (he : Fits e) : Fits (.paren e s)
  | block {es : List Expr} {s : Span} (hes : ∀ e ∈ es, Fits e) : Fits (.block es s)
  | list {es : List Expr} {s : Span} (hes : ∀ e ∈ es, Fits e) : Fits (.list es s)
  | record {fields : List (String × Expr)} {s : Span} (hne : fields ≠ [])
      (hnames : ∀ f ∈ fields, IsName f.1) (hfields : ∀ f ∈ fields, Fits f.2) :
      Fits (.record fields s)
  | field {e : Expr} {name : String} {s : Span} (hname : IsIdentifier name)
      (hclosed : e.takesPostfix = true) (he : Fits e) : Fits (.field e name s)
  | lambda {params : List String} {e : Expr} {s : Span} (hparams : ∀ p ∈ params, IsSymbol p)
      (he : Fits e) : Fits (.lambda params e s)
  | ifThen {cond yes : Expr} {s : Span} (hcond : Fits cond) (hyes : Fits yes) :
      Fits (.ifThen cond yes s)
  | ifElse {cond yes no : Expr} {s : Span} (hcond : Fits cond) (hyes : Fits yes) (hno : Fits no)
      (hend : yes.endsThen = false) : Fits (.ifElse cond yes no s)

namespace Expr

variable {e f : Expr} {es : List Expr} {s : Span}

/-- Trees that fit print into their tokens. -/
theorem Fits.prints (h : e.Fits) : Prints e := by
  induction h with
  | lit hfloat hint => exact prints_lit hfloat hint
  | sym hname => exact prints_sym hname
  | operator ht hspecial he _ _ _ _ ihl ihr =>
    subst he
    exact prints_apply ht hspecial ihl ihr
  | sign ht _ _ ih => exact prints_sign ht ih
  | call hplain _ _ _ ihf ihes => exact prints_call hplain ihf ihes
  | paren _ ih => exact prints_paren ih
  | block _ ih => exact prints_block ih
  | list _ ih => exact prints_list ih
  | record _ hnames _ ih => exact prints_record fun f hf => ⟨hnames f hf, ih f hf⟩
  | field hname _ _ ih => exact prints_field ih hname
  | lambda hparams _ ih => exact prints_lambda hparams ih
  | ifThen _ _ ihc ihy => exact prints_ifThen ihc ihy
  | ifElse _ _ _ _ ihc ihy ihn => exact prints_ifElse ihc ihy ihn

theorem Fits.isPlainCallee (h : f.Fits) : IsPlainCallee f := by
  cases h with
  | sym hname hneg => exact Parser.isPlainCallee_sym hname hneg
  | operator _ _ he =>
    subst he
    unfold InfixOp.apply
    split <;> trivial
  | _ => trivial

end Expr

end PipeLang
