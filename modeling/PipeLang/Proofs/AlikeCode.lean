import Mathlib.Data.List.Forall2
import PipeLang.Expr.Printer
import PipeLang.Pipe.Unroll

/-!
# Expressions that are alike

Two expressions are alike if they are equal but for their spans and for the symbols and references
that a `Variation` lets differ.  What the interpreter makes of the right sides of pipes is alike
again (`Expr.Alike.step`), and expressions in which no symbol differs are printed alike
(`Expr.Alike.print_eq`).
-/

namespace PipeLang

/-- What may stand for each other in expressions that are alike. -/
structure Variation where
  symbol : String → String → Prop := Eq
  ref : InlineRef → InlineRef → Prop := Eq

/-- Pipe operators stand for each other as the relation says. -/
def Variation.ofOperators (R : PipeOp → PipeOp → Prop) : Variation where
  symbol name name' := name = name' ∨ ∃ op op', R op op' ∧ name = op.name ∧ name' = op'.name

/-- The expressions are equal but for spans, and for symbols and references that vary. -/
inductive Expr.Alike (d : Variation) : Expr → Expr → Prop
  | lit (literal : Literal) (s s' : Span) : Expr.Alike d (.lit literal s) (.lit literal s')
  | sym {name name' : String} (h : d.symbol name name') (s s' : Span) :
      Expr.Alike d (.sym name s) (.sym name' s')
  | call {func func' : Expr} {args args' : List Expr} (hfunc : Expr.Alike d func func')
      (hargs : List.Forall₂ (Expr.Alike d) args args') (s s' : Span) :
      Expr.Alike d (.call func args s) (.call func' args' s')
  | paren {e e' : Expr} (h : Expr.Alike d e e') (s s' : Span) :
      Expr.Alike d (.paren e s) (.paren e' s')
  | block {es es' : List Expr} (h : List.Forall₂ (Expr.Alike d) es es') (s s' : Span) :
      Expr.Alike d (.block es s) (.block es' s')
  | list {es es' : List Expr} (h : List.Forall₂ (Expr.Alike d) es es') (s s' : Span) :
      Expr.Alike d (.list es s) (.list es' s')
  | record {fields fields' : List (String × Expr)}
      (hnames : fields.map Prod.fst = fields'.map Prod.fst)
      (h : List.Forall₂ (Expr.Alike d) (fields.map Prod.snd) (fields'.map Prod.snd)) (s s' : Span) :
      Expr.Alike d (.record fields s) (.record fields' s')
  | field {e e' : Expr} (h : Expr.Alike d e e') (name : String) (s s' : Span) :
      Expr.Alike d (.field e name s) (.field e' name s')
  | lambda (params : List String) {body body' : Expr} (h : Expr.Alike d body body') (s s' : Span) :
      Expr.Alike d (.lambda params body s) (.lambda params body' s')
  | ifThen {cond yes cond' yes' : Expr} (hcond : Expr.Alike d cond cond')
      (hyes : Expr.Alike d yes yes') (s s' : Span) :
      Expr.Alike d (.ifThen cond yes s) (.ifThen cond' yes' s')
  | ifElse {cond yes no cond' yes' no' : Expr} (hcond : Expr.Alike d cond cond')
      (hyes : Expr.Alike d yes yes') (hno : Expr.Alike d no no') (s s' : Span) :
      Expr.Alike d (.ifElse cond yes no s) (.ifElse cond' yes' no' s')
  | assign {target value target' value' : Expr} (htarget : Expr.Alike d target target')
      (hvalue : Expr.Alike d value value') (scope : AssignScope) (s s' : Span) :
      Expr.Alike d (.assign target value scope s) (.assign target' value' scope s')
  | inline (label : String) {ref ref' : InlineRef} (h : d.ref ref ref') (s s' : Span) :
      Expr.Alike d (.inline label ref s) (.inline label ref' s')

/-- The texts quote expressions that are alike. -/
def Variation.Quotes (d : Variation) (a b : String) : Prop :=
  ∃ e e' : Expr, e.Alike d e' ∧ a = e.print ∧ b = e'.print

/-- The names that the interpreter brings in itself stand for themselves alone. -/
structure Variation.Fits (d : Variation) : Prop where
  placeholder : ∀ {name name'}, d.symbol name name' →
    (name = PipeLang.placeholder ↔ name' = PipeLang.placeholder)
  refl_placeholder : d.symbol PipeLang.placeholder PipeLang.placeholder
  refl_scopeName : d.symbol Expr.scopeName Expr.scopeName

namespace Expr.Alike

variable {d : Variation} {e e' : Expr}

/-! ### Steps -/

/-- To be the placeholder is to be a symbol of that name, which fits no other. -/
theorem isPlaceholder_eq (hd : d.Fits) (h : Alike d e e') : e.isPlaceholder = e'.isPlaceholder := by
  cases h with
  | sym h =>
    rw [isPlaceholder, isPlaceholder, isSym_sym, isSym_sym, Bool.eq_iff_iff, beq_iff_eq, beq_iff_eq]
    exact hd.placeholder h
  | _ => rfl

/-- The placeholder is added to both lists of arguments or to neither. -/
theorem withPlaceholder (hd : d.Fits) {es es' : List Expr} (h : List.Forall₂ (Alike d) es es')
    (s s' : Span) :
    List.Forall₂ (Alike d) (Expr.withPlaceholder s es) (Expr.withPlaceholder s' es') := by
  have hany : es.any isPlaceholder = es'.any isPlaceholder := by
    induction h with
    | nil => rfl
    | cons he _ ih => rw [List.any_cons, List.any_cons, he.isPlaceholder_eq hd, ih]
  unfold Expr.withPlaceholder
  rw [hany]
  split
  · exact h
  · exact .cons (.sym hd.refl_placeholder s s') h

/-- A step becomes a call of the same shape. -/
theorem asPipeCall (hd : d.Fits) (h : Alike d e e') : Alike d e.asPipeCall e'.asPipeCall := by
  cases h with
  | call hfunc hargs s s' => exact .call hfunc (withPlaceholder hd hargs s s') s s'
  | block h s s' => exact .block (withPlaceholder hd h s s') s s'
  | _ =>
    refine .call ?_ (withPlaceholder hd .nil _ _) _ _
    constructor <;> assumption

/-- Whatever the pipe makes of a step, it makes the like of a like one. -/
theorem step (hd : d.Fits) (h : Alike d e e') (kind : PipeKind) :
    Alike d (kind.step e) (kind.step e') := by
  have hplaceholder : ∀ s s', Alike d (.sym placeholder s) (.sym placeholder s') :=
    fun s s' => .sym hd.refl_placeholder s s'
  cases kind with
  | standard | compound => exact h.asPipeCall hd
  | tee => exact .block (.cons (h.asPipeCall hd) (.cons (hplaceholder _ _) .nil)) _ _
  | dollar =>
    exact .call (.sym hd.refl_scopeName _ _) (.cons (hplaceholder _ _) (.cons h .nil)) _ _

end Expr.Alike

/-! ### Expressions beside themselves -/

/-- Everything stands for itself. -/
structure Variation.Reflexive (d : Variation) : Prop where
  symbol : ∀ name, d.symbol name name
  ref : ∀ ref, d.ref ref ref

/-- A variation of operators has equal symbols and equal references. -/
theorem Variation.reflexive_ofOperators (R : PipeOp → PipeOp → Prop) :
    (Variation.ofOperators R).Reflexive where
  symbol _ := .inl rfl
  ref _ := rfl

namespace Expr.Alike

mutual

/-- Every expression is like itself, if its symbols and references may stay. -/
theorem refl {d : Variation} (hd : d.Reflexive) : ∀ e : Expr, e.Alike d e
  | .lit literal s => .lit literal s s
  | .sym name s => .sym (hd.symbol name) s s
  | .call func args s => .call (refl hd func) (reflAll hd args) s s
  | .paren e s => .paren (refl hd e) s s
  | .block es s => .block (reflAll hd es) s s
  | .list es s => .list (reflAll hd es) s s
  | .record fields s => .record rfl (reflFields hd fields) s s
  | .field e name s => .field (refl hd e) name s s
  | .lambda params body s => .lambda params (refl hd body) s s
  | .ifThen cond yes s => .ifThen (refl hd cond) (refl hd yes) s s
  | .ifElse cond yes no s => .ifElse (refl hd cond) (refl hd yes) (refl hd no) s s
  | .assign target value scope s => .assign (refl hd target) (refl hd value) scope s s
  | .inline label ref s => .inline label (hd.ref ref) s s

theorem reflAll {d : Variation} (hd : d.Reflexive) :
    ∀ es : List Expr, List.Forall₂ (Alike d) es es
  | [] => .nil
  | e :: rest => .cons (refl hd e) (reflAll hd rest)

theorem reflFields {d : Variation} (hd : d.Reflexive) : ∀ fields : List (String × Expr),
    List.Forall₂ (Alike d) (fields.map Prod.snd) (fields.map Prod.snd)
  | [] => .nil
  | (_, e) :: rest => .cons (refl hd e) (reflFields hd rest)

end

end Expr.Alike

namespace Expr.Alike

mutual

/-- What is alike stays so if more may differ. -/
theorem mono {d d' : Variation} (hsymbol : ∀ a b, d.symbol a b → d'.symbol a b)
    (href : ∀ r r', d.ref r r' → d'.ref r r') : ∀ {e e' : Expr}, Alike d e e' → Alike d' e e'
  | .lit _ _, _, .lit literal s s' => .lit literal s s'
  | .sym _ _, _, .sym h s s' => .sym (hsymbol _ _ h) s s'
  | .call _ _ _, _, .call hfunc hargs s s' =>
    .call (mono hsymbol href hfunc) (monoAll hsymbol href hargs) s s'
  | .paren _ _, _, .paren h s s' => .paren (mono hsymbol href h) s s'
  | .block _ _, _, .block h s s' => .block (monoAll hsymbol href h) s s'
  | .list _ _, _, .list h s s' => .list (monoAll hsymbol href h) s s'
  | .record _ _, _, .record hnames h s s' => .record hnames (monoFields hsymbol href h) s s'
  | .field _ _ _, _, .field h name s s' => .field (mono hsymbol href h) name s s'
  | .lambda _ _ _, _, .lambda params h s s' => .lambda params (mono hsymbol href h) s s'
  | .ifThen _ _ _, _, .ifThen hcond hyes s s' =>
    .ifThen (mono hsymbol href hcond) (mono hsymbol href hyes) s s'
  | .ifElse _ _ _ _, _, .ifElse hcond hyes hno s s' =>
    .ifElse (mono hsymbol href hcond) (mono hsymbol href hyes) (mono hsymbol href hno) s s'
  | .assign _ _ _ _, _, .assign htarget hvalue scope s s' =>
    .assign (mono hsymbol href htarget) (mono hsymbol href hvalue) scope s s'
  | .inline _ _ _, _, .inline label h s s' => .inline label (href _ _ h) s s'

theorem monoAll {d d' : Variation} (hsymbol : ∀ a b, d.symbol a b → d'.symbol a b)
    (href : ∀ r r', d.ref r r' → d'.ref r r') : ∀ {es es' : List Expr},
      List.Forall₂ (Alike d) es es' → List.Forall₂ (Alike d') es es'
  | [], _, .nil => .nil
  | _ :: _, _, .cons h hrest => .cons (mono hsymbol href h) (monoAll hsymbol href hrest)

theorem monoFields {d d' : Variation} (hsymbol : ∀ a b, d.symbol a b → d'.symbol a b)
    (href : ∀ r r', d.ref r r' → d'.ref r r') : ∀ {fields fields' : List (String × Expr)},
      List.Forall₂ (Alike d) (fields.map Prod.snd) (fields'.map Prod.snd) →
        List.Forall₂ (Alike d') (fields.map Prod.snd) (fields'.map Prod.snd)
  | [], [], .nil => .nil
  | _ :: _, _ :: _, .cons h hrest => .cons (mono hsymbol href h) (monoFields hsymbol href hrest)

end

end Expr.Alike

/-! ### Expressions in which no symbol differs -/

/-- Only the references have to be related by the weaker relation. -/
theorem Expr.Alike.mono_ref {R R' : InlineRef → InlineRef → Prop}
    (h : ∀ ref ref', R ref ref' → R' ref ref') {e e' : Expr} (he : e.Alike ⟨Eq, R⟩ e') :
    e.Alike ⟨Eq, R'⟩ e' := by
  have hsymbol : ∀ a b, (⟨Eq, R⟩ : Variation).symbol a b → (⟨Eq, R'⟩ : Variation).symbol a b :=
    fun _ _ heq => heq
  exact he.mono hsymbol h

/-- Equal symbols fit, whatever the references are. -/
theorem Variation.fits_of_eq (ref : InlineRef → InlineRef → Prop) : Variation.Fits ⟨Eq, ref⟩ where
  placeholder h := Eq.congr_left h
  refl_placeholder := rfl
  refl_scopeName := rfl

section

variable {ref : InlineRef → InlineRef → Prop}

/-- A callee is parenthesized by its shape, which like callees share. -/
theorem printCall_congr {func func' : Expr} (h : Expr.Alike ⟨Eq, ref⟩ func func') (callee : String)
    (args : List String) : printCall func callee args = printCall func' callee args := by
  cases h with
  | sym h =>
    obtain rfl := h
    rcases args with _ | ⟨a, _ | ⟨b, _ | _⟩⟩ <;> rfl
  | _ => rfl

namespace Expr.Alike

mutual

/-- A spliced value prints as a dot whatever it is, so that expressions print alike. -/
theorem print_eq : ∀ {e e' : Expr}, Alike ⟨Eq, ref⟩ e e' → e.print = e'.print
  | .lit literal _, _, .lit _ _ _ => rfl
  | .sym name _, _, .sym h _ _ => h
  | .call func args _, _, .call hfunc hargs _ _ => by
    rw [print, print, print_eq hfunc, printAll_eq hargs, printCall_congr hfunc]
  | .paren e _, _, .paren h _ _ => by rw [print, print, print_eq h]
  | .block [] _, _, .block .nil _ _ => rfl
  | .block (e :: rest) _, _, .block (.cons h hrest) _ _ => by
    rw [print, print, print_eq h, printAll_eq hrest]
  | .list items _, _, .list h _ _ => by rw [print, print, printAll_eq h]
  | .record fields _, _, .record hnames h _ _ => by rw [print, print, printFields_eq hnames h]
  | .field e name _, _, .field h _ _ _ => by rw [print, print, print_eq h]
  | .lambda params body _, _, .lambda _ h _ _ => by rw [print, print, print_eq h]
  | .ifThen cond yes _, _, .ifThen hcond hyes _ _ => by
    rw [print, print, print_eq hcond, print_eq hyes]
  | .ifElse cond yes no _, _, .ifElse hcond hyes hno _ _ => by
    rw [print, print, print_eq hcond, print_eq hyes, print_eq hno]
  | .assign target value _ _, _, .assign htarget hvalue _ _ _ => by
    rw [print, print, print_eq htarget, print_eq hvalue]
  | .inline label _ _, _, .inline _ _ _ _ => rfl

theorem printAll_eq : ∀ {es es' : List Expr}, List.Forall₂ (Alike ⟨Eq, ref⟩) es es' →
    printAll es = printAll es'
  | [], _, .nil => rfl
  | e :: rest, _, .cons h hrest => by rw [printAll, printAll, print_eq h, printAll_eq hrest]

theorem printFields_eq : ∀ {fields fields' : List (String × Expr)},
    fields.map Prod.fst = fields'.map Prod.fst →
    List.Forall₂ (Alike ⟨Eq, ref⟩) (fields.map Prod.snd) (fields'.map Prod.snd) →
    printFields fields = printFields fields'
  | [], [], _, _ => rfl
  | (name, e) :: rest, (name', e') :: rest', hnames, h => by
    cases h with
    | cons h hrest =>
      obtain ⟨rfl, htail⟩ : name = name' ∧ rest.map Prod.fst = rest'.map Prod.fst :=
        List.cons.inj hnames
      rw [printFields, printFields, print_eq h, printFields_eq htail hrest]

end

end Expr.Alike

end

end PipeLang
