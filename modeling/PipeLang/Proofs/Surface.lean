import Mathlib.Data.List.Basic
import PipeLang.Parser.Program
import PipeLang.Pipe.Kind
import PipeLang.Proofs.Invariant
import PipeLang.Proofs.Lexemes
import PipeLang.Proofs.Parsing

/-!
# Pipes in programs

In a program the name of a pipe operator stands between two operands and nowhere else: it is no
identifier, so nothing is bound to it, and it cannot be written as a value.  What stands to the
right of a pipe is no pipe itself, since pipes associate to the left.  `Expr.PipesInfix` says so of
an expression, and `pipesInfix_of_parseProgram` that it holds of all that is parsed.

This is shown along the recursion of the parser, with one statement for each of its parts
(`Parser.Surfaces`), by induction on the fuel.
-/

namespace PipeLang

/-! ### Names of pipe operators -/

/-- The name is no pipe operator, qualified or not. -/
def NoPipe (name : String) : Prop :=
  PipeOp.ofName? name = none ∧ ∀ bare, unqualified? name = some bare → PipeOp.ofName? bare = none

/-- A name is that of no operator exactly if it differs from all of them. -/
theorem ofName?_eq_none_iff {name : String} :
    PipeOp.ofName? name = none ↔ ∀ op : PipeOp, name ≠ op.name := by
  rw [Option.eq_none_iff_forall_ne_some]
  exact forall_congr' fun op => not_congr PipeOp.ofName?_eq_some_iff

theorem count_percent_name (op : PipeOp) : op.name.toList.count '%' = 2 := by
  cases op <;> decide

/-- A name with fewer percent signs than a pipe operator. -/
theorem noPipe_of_count_lt {name : String} (h : name.toList.count '%' < 2) : NoPipe name := by
  constructor
  · rw [ofName?_eq_none_iff]
    rintro op rfl
    rw [count_percent_name] at h
    exact Nat.lt_irrefl _ h
  · intro bare hbare
    obtain ⟨before, -, happend⟩ := unqualified?_suffix hbare
    rw [ofName?_eq_none_iff]
    rintro op rfl
    rw [happend, List.count_append, count_percent_name] at h
    omega

/-- An identifier of the source has no percent sign where an operator has two. -/
theorem noPipe_of_isName {name : String} (h : IsName name) : NoPipe name := by
  obtain ⟨c, plain, tail, hlist, hc, hplain, htail⟩ := h
  have hletters : ∀ x ∈ c :: (plain ++ tail), x ≠ '%' := by
    rintro x hx rfl
    rcases List.mem_cons.1 hx with rfl | hx
    · cases hc
    · rcases List.mem_append.1 hx with hx | hx
      · cases hplain _ hx
      · rcases htail with rfl | ⟨d, rest, rfl, hd, hrest⟩
        · cases hx
        · simp only [List.mem_cons] at hx
          rcases hx with hx | hx | rfl | hx
          · cases hx
          · cases hx
          · cases hd
          · cases hrest _ hx
  refine noPipe_of_count_lt ?_
  rw [hlist, List.count_eq_zero_of_not_mem fun hmem => hletters _ hmem rfl]
  exact Nat.zero_lt_two

/-- An operator between percent signs is a pipe operator or hides none. -/
theorem noPipe_of_isSpecial {op : String} (h : IsSpecial op) (hnone : PipeOp.ofName? op = none) :
    NoPipe op := by
  refine ⟨hnone, fun bare hbare => ?_⟩
  obtain ⟨name, hlist, hname⟩ := h
  obtain ⟨before, hne, happend⟩ := unqualified?_suffix hbare
  rw [ofName?_eq_none_iff]
  rintro pipe rfl
  -- the name of a pipe operator has both percent signs, and one of them is cut off
  have hcount : (name ++ ['%']).count '%' ≤ 1 := by
    rw [List.count_append, List.count_eq_zero_of_not_mem]
    · simp
    · intro hmem
      cases hname _ hmem
  rw [hlist] at happend
  obtain ⟨c, rest, rfl⟩ := List.exists_cons_of_ne_nil hne
  obtain ⟨-, htail⟩ : '%' = c ∧ name ++ ['%'] = rest ++ pipe.name.toList := List.cons.inj happend
  rw [htail, List.count_append, count_percent_name] at hcount
  omega

theorem noPipe_placeholder : NoPipe placeholder := noPipe_of_count_lt (by decide)

/-! ### Expressions -/

/-- Pipe operators stand between operands only, and no right operand is a pipe. -/
inductive Expr.PipesInfix : Expr → Prop
  | lit (literal : Literal) (s : Span) : PipesInfix (.lit literal s)
  | sym {name : String} (h : NoPipe name) (s : Span) : PipesInfix (.sym name s)
  | pipe (op : PipeOp) {left right : Expr} (hleft : PipesInfix left) (hright : PipesInfix right)
      (hplain : right.pipeKind? = none) (at_ s : Span) :
      PipesInfix (.call (.sym op.name at_) [left, right] s)
  | call {func : Expr} {args : List Expr} (hfunc : PipesInfix func)
      (hargs : ∀ e ∈ args, PipesInfix e) (s : Span) : PipesInfix (.call func args s)
  | paren {e : Expr} (h : PipesInfix e) (s : Span) : PipesInfix (.paren e s)
  | block {es : List Expr} (h : ∀ e ∈ es, PipesInfix e) (s : Span) : PipesInfix (.block es s)
  | list {es : List Expr} (h : ∀ e ∈ es, PipesInfix e) (s : Span) : PipesInfix (.list es s)
  | record {fields : List (String × Expr)} (hnames : ∀ name ∈ fields.map Prod.fst, NoPipe name)
      (h : ∀ e ∈ fields.map Prod.snd, PipesInfix e) (s : Span) : PipesInfix (.record fields s)
  | field {e : Expr} (h : PipesInfix e) (name : String) (s : Span) : PipesInfix (.field e name s)
  | lambda {params : List String} (hparams : ∀ name ∈ params, NoPipe name) {body : Expr}
      (h : PipesInfix body) (s : Span) : PipesInfix (.lambda params body s)
  | ifThen {cond yes : Expr} (hcond : PipesInfix cond) (hyes : PipesInfix yes) (s : Span) :
      PipesInfix (.ifThen cond yes s)
  | ifElse {cond yes no : Expr} (hcond : PipesInfix cond) (hyes : PipesInfix yes)
      (hno : PipesInfix no) (s : Span) : PipesInfix (.ifElse cond yes no s)
  | assign {target value : Expr} (htarget : PipesInfix target) (hvalue : PipesInfix value)
      (scope : AssignScope) (s : Span) : PipesInfix (.assign target value scope s)
  | inline (label : String) (ref : InlineRef) (s : Span) : PipesInfix (.inline label ref s)

namespace Expr

/-- A call by any other name is no pipe. -/
theorem pipeKind?_sym_call {name : String} (h : PipeOp.ofName? name = none) (args : List Expr)
    (at_ s : Span) : (call (sym name at_) args s).pipeKind? = none := by
  rw [pipeKind?, callOp?, Option.bind_some, h]
  rfl

/-- A call is a pipe only of an operator. -/
theorem PipesInfix.pipeKind?_call {func : Expr} (h : func.PipesInfix) (args : List Expr)
    (s : Span) : (Expr.call func args s).pipeKind? = none := by
  cases h with
  | sym h => exact pipeKind?_sym_call h.1 args _ _
  | _ => rfl

/-- The placeholder that is added is a plain symbol. -/
theorem PipesInfix.withPlaceholder {es : List Expr} (h : ∀ e ∈ es, PipesInfix e) (s : Span) :
    ∀ e ∈ Expr.withPlaceholder s es, PipesInfix e := by
  unfold Expr.withPlaceholder
  split
  · exact h
  · exact List.forall_mem_cons.2 ⟨.sym noPipe_placeholder s, h⟩

/-- A plain side stays without operators when it is called. -/
theorem PipesInfix.asPipeCall {e : Expr} (h : e.PipesInfix) (hplain : e.pipeKind? = none) :
    e.asPipeCall.PipesInfix := by
  have hcalled : (Expr.call e [] e.span).addPlaceholder.PipesInfix :=
    .call h (withPlaceholder (by simp) _) _
  cases h with
  | pipe op hleft hright hplain' at_ s =>
    rw [pipeKind?, callOp?, Option.bind_some, PipeOp.ofName?_name] at hplain
    cases hplain
  | call hfunc hargs s => exact .call hfunc (withPlaceholder hargs s) s
  | block h s => exact .block (withPlaceholder h s) s
  | _ => exact hcalled

/-- The step of a right side has pipes between operands only, unless that is a pipe itself. -/
theorem PipesInfix.step {e : Expr} (h : e.PipesInfix) (hplain : e.pipeKind? = none)
    (kind : PipeKind) : (kind.step e).PipesInfix := by
  have hplaceholder : (Expr.sym PipeLang.placeholder e.span).PipesInfix := .sym noPipe_placeholder _
  cases kind with
  | standard | compound => exact h.asPipeCall hplain
  | tee => exact .block (by simpa using ⟨h.asPipeCall hplain, hplaceholder⟩) _
  | dollar =>
    exact .call (.sym (noPipe_of_count_lt (by decide)) _) (by simpa using ⟨hplaceholder, h⟩) _

end Expr

/-! ### What the parser gives -/

namespace Parser

/-- The names and the special operators of the lexemes are spelled as such. -/
def Named (ts : List Lexeme) : Prop :=
  ∀ t ∈ ts, (∀ name, t.token = .ident name → NoPipe name) ∧
    ∀ op, t.token = .special op → PipeOp.ofName? op = none → NoPipe op

variable {free : Bool} {least fuel : Nat} {e lhs : Expr} {es : List Expr} {s : Span}
  {t : Lexeme} {ts rest : List Lexeme} {name : String}

/-- The lexer gives identifiers that are names, and special tokens that are operators or are not. -/
theorem Named.of_lexed (h : Lexed ts) : Named ts := by
  induction h with
  | nil => simp [Named]
  | cons hspelled _ ih =>
    refine List.forall_mem_cons.2 ⟨⟨fun name hname => ?_, fun op hop hnone => ?_⟩, ih⟩
    · rw [hname] at hspelled
      exact noPipe_of_isName hspelled.1
    · rw [hop] at hspelled
      exact noPipe_of_isSpecial hspelled hnone

theorem Named.tail (h : Named (t :: rest)) : Named rest := (List.forall_mem_cons.1 h).2

theorem Named.dropWhile (h : Named ts) (p : Lexeme → Bool) : Named (ts.dropWhile p) :=
  fun t ht => h t ((List.dropWhile_sublist p).subset ht)

theorem Named.ahead (h : Named ts) (free : Bool) : Named (ahead free ts) := by
  cases free
  · exact h
  · exact h.dropWhile _

theorem Named.next (h : Named ts) (hn : next free ts = .ok (t, rest)) : Named (t :: rest) := by
  rw [← ahead_of_next hn]
  exact h.ahead free

theorem Named.expect {token : Token} {what : String} (h : Named ts)
    (hn : expect free token what ts = .ok (t, rest)) : Named rest := by
  have hahead := (ahead_of_expect hn).1
  exact (hahead ▸ h.ahead free : Named (t :: rest)).tail

/-- A name that is expected is an identifier of the source. -/
theorem Named.expectName {what : String} (h : Named ts)
    (hn : expectName free what ts = .ok (name, s, rest)) : Named rest ∧ NoPipe name := by
  obtain ⟨t, hahead, ht, -⟩ := exists_ahead_of_expectName hn
  have hnamed : Named (t :: rest) := hahead ▸ h.ahead free
  exact ⟨hnamed.tail, (hnamed t List.mem_cons_self).1 name ht⟩

mutual

theorem Named.of_paramNames {ts rest : List Lexeme} {names : List String} (h : Named ts)
    (hn : paramNames ts = .ok (names, rest)) : Named rest ∧ ∀ p ∈ names, NoPipe p := by
  cases ts with
  | nil => rw [paramNames] at hn; cases hn
  | cons t tail =>
    rw [paramNames] at hn
    split at hn
    · exact Named.of_paramNames h.tail hn
    · cases hn
      exact ⟨h.tail, by simp⟩
    · next name ht =>
      obtain ⟨⟨others, after⟩, ha, hn⟩ := Outcome.bind_eq_ok_iff.1 hn
      cases hn
      obtain ⟨hrest, hall⟩ := Named.of_afterParam h.tail ha
      exact ⟨hrest, List.forall_mem_cons.2 ⟨(h t List.mem_cons_self).1 name ht, hall⟩⟩
    · obtain ⟨⟨others, after⟩, ha, hn⟩ := Outcome.bind_eq_ok_iff.1 hn
      cases hn
      obtain ⟨hrest, hall⟩ := Named.of_afterParam h.tail ha
      exact ⟨hrest, List.forall_mem_cons.2 ⟨noPipe_placeholder, hall⟩⟩
    · cases hn

theorem Named.of_afterParam {ts rest : List Lexeme} {names : List String} (h : Named ts)
    (hn : afterParam ts = .ok (names, rest)) : Named rest ∧ ∀ p ∈ names, NoPipe p := by
  cases ts with
  | nil => rw [afterParam] at hn; cases hn
  | cons t tail =>
    rw [afterParam] at hn
    split at hn
    · exact Named.of_afterParam h.tail hn
    · cases hn
      exact ⟨h.tail, by simp⟩
    · exact Named.of_paramNames h.tail hn
    · cases hn

end

/-- What is left is spelled as it should be, and what has been read has its pipes between
operands. -/
def Surfaced (rest : List Lexeme) (e : Expr) : Prop := Named rest ∧ e.PipesInfix

/-- So has each of the expressions that have been read. -/
def SurfacedAll (rest : List Lexeme) (es : List Expr) : Prop :=
  Named rest ∧ ∀ e ∈ es, e.PipesInfix

/-- An operand is no pipe itself. -/
def SurfacedOperand (rest : List Lexeme) (e : Expr) : Prop :=
  Surfaced rest e ∧ e.pipeKind? = none

/-- What each part of the parser gives, at one amount of fuel.  Where operators are to bind more
tightly than all there are, an operand alone is read. -/
structure Surfaces (fuel : Nat) : Prop where
  expr : ∀ {free least ts e rest}, Named ts → expr fuel free least ts = .ok (e, rest) →
    Surfaced rest e ∧ (Power.sign ≤ least → e.pipeKind? = none)
  infixTail : ∀ {free least lhs ts e rest}, Named ts → lhs.PipesInfix →
    infixTail fuel free least lhs ts = .ok (e, rest) →
    Surfaced rest e ∧ (Power.sign ≤ least → e = lhs)
  operand : ∀ {free ts e rest}, Named ts → operand fuel free ts = .ok (e, rest) →
    SurfacedOperand rest e
  postfixTail : ∀ {free lhs ts e rest}, SurfacedOperand ts lhs →
    postfixTail fuel free lhs ts = .ok (e, rest) → SurfacedOperand rest e
  atom : ∀ {free ts e rest}, Named ts → atom fuel free ts = .ok (e, rest) → SurfacedOperand rest e
  signed : ∀ {free op s ts e rest} {t : Lexeme}, Start.ofToken? t.token = some (.sign op) →
    Named ts → signed fuel free op s ts = .ok (e, rest) → SurfacedOperand rest e
  lambda : ∀ {free s ts e rest}, Named ts → lambda fuel free s ts = .ok (e, rest) →
    SurfacedOperand rest e
  conditional : ∀ {free s ts e rest}, Named ts → conditional fuel free s ts = .ok (e, rest) →
    SurfacedOperand rest e
  exprs : ∀ {close ts es s rest}, Named ts → exprs fuel close ts = .ok (es, s, rest) →
    SurfacedAll rest es
  recordFields : ∀ {ts fields s rest}, Named ts → recordFields fuel ts = .ok (fields, s, rest) →
    SurfacedAll rest (fields.map Prod.snd) ∧ ∀ name ∈ fields.map Prod.fst, NoPipe name
  statements : ∀ {close ts es rest}, Named ts → statements fuel close ts = .ok (es, rest) →
    SurfacedAll rest es

theorem noPipe_of_sign {op : String} {token : Token} (h : Start.ofToken? token = some (.sign op)) :
    NoPipe op := by
  cases token <;> cases h <;> exact noPipe_of_count_lt (by decide)

/-- Signs bind more tightly than all infix operators. -/
theorem left_lt_sign {token : Token} {op : InfixOp} (h : InfixOp.ofToken? token = some op) :
    op.left < Power.sign := by
  cases token <;> cases h <;> exact Nat.le_of_ble_eq_true rfl

/-- An infix operator makes a pipe, a call of another function or an assignment. -/
theorem pipesInfix_apply {op : InfixOp} {rhs : Expr} (hnamed : Named (t :: rest))
    (hop : InfixOp.ofToken? t.token = some op) (hlhs : lhs.PipesInfix) (hrhs : rhs.PipesInfix)
    (hplain : Power.sign ≤ op.right → rhs.pipeKind? = none) :
    (op.apply s lhs rhs).PipesInfix := by
  have hplainCall : ∀ name, NoPipe name →
      (Expr.call (.sym name s) [lhs, rhs] (lhs.span.join rhs.span)).PipesInfix := fun name hname =>
    .call (.sym hname s) (by simpa using ⟨hlhs, hrhs⟩) _
  rcases htoken : t.token with _ | _ | _ | _ | _ | _ | _ | _ | _ | _ | _ | _ | _ | _ | _ | _ | _ |
    _ | _ | _ | _ | _ | _ | _ | _ | _ | _ | _ | _ | name <;> rw [htoken] at hop
  -- only a special token can be a pipe operator, and its right side has been read with the power of
  -- a sign
  case special =>
    cases hop
    have hright : rhs.pipeKind? = none := hplain (Nat.le_refl _)
    rcases hname : PipeOp.ofName? name with _ | pipe
    · exact hplainCall name ((hnamed t List.mem_cons_self).2 name htoken hname)
    · obtain rfl := PipeOp.ofName?_eq_some_iff.1 hname
      exact .pipe pipe hlhs hrhs hright _ _
  case superArrow | leftArrow =>
    cases hop
    exact .assign hlhs hrhs _ _
  all_goals
    first
      | cases hop; exact hplainCall _ (noPipe_of_count_lt (by decide))
      | cases hop

variable (ih : Surfaces fuel)

include ih

/-- An expression is an operand and the operators after it; with a high power it is the operand
alone. -/
theorem surfaced_expr (hts : Named ts) (h : expr (fuel + 1) free least ts = .ok (e, rest)) :
    Surfaced rest e ∧ (Power.sign ≤ least → e.pipeKind? = none) := by
  rw [expr] at h
  obtain ⟨⟨lhs, mid⟩, ho, h⟩ := Outcome.bind_eq_ok_iff.1 h
  obtain ⟨⟨hmid, hlhs⟩, hplain⟩ := ih.operand hts ho
  obtain ⟨he, halone⟩ := ih.infixTail hmid hlhs h
  exact ⟨he, fun hleast => halone hleast ▸ hplain⟩

/-- The right side of an operator that binds as tightly as a pipe is read without operators, so that
it is no pipe. -/
theorem surfaced_infixTail (hts : Named ts) (hlhs : lhs.PipesInfix)
    (h : infixTail (fuel + 1) free least lhs ts = .ok (e, rest)) :
    Surfaced rest e ∧ (Power.sign ≤ least → e = lhs) := by
  have hahead := hts.ahead free
  rw [infixTail] at h
  split at h
  · cases h
    exact ⟨⟨by simp [Named], hlhs⟩, fun _ => rfl⟩
  · next t tail heq =>
    rw [heq] at hahead
    split at h
    · cases h
      exact ⟨⟨hahead, hlhs⟩, fun _ => rfl⟩
    · next op hop =>
      split at h
      · cases h
        exact ⟨⟨hahead, hlhs⟩, fun _ => rfl⟩
      · next hle =>
        obtain ⟨⟨rhs, mid⟩, hr, h⟩ := Outcome.bind_eq_ok_iff.1 h
        obtain ⟨⟨hmid, hrhs⟩, hplain⟩ := ih.expr (hahead.tail.dropWhile _) hr
        obtain ⟨he, -⟩ := ih.infixTail hmid (pipesInfix_apply hahead hop hlhs hrhs hplain) h
        -- no operator is taken that binds less than is asked for
        refine ⟨he, fun hleast => absurd ?_ hle⟩
        exact Nat.lt_of_lt_of_le (left_lt_sign hop) hleast

theorem surfaced_operand (hts : Named ts) (h : operand (fuel + 1) free ts = .ok (e, rest)) :
    SurfacedOperand rest e := by
  rw [operand] at h
  obtain ⟨⟨lhs, mid⟩, ha, h⟩ := Outcome.bind_eq_ok_iff.1 h
  exact ih.postfixTail (ih.atom hts ha) h

/-- Arguments and fields make no pipe of an operand, as its callee is no operator. -/
theorem surfaced_postfixTail (hlhs : SurfacedOperand ts lhs)
    (h : postfixTail (fuel + 1) free lhs ts = .ok (e, rest)) : SurfacedOperand rest e := by
  cases ts with
  | nil =>
    rw [postfixTail] at h
    cases h
    exact hlhs
  | cons t tail =>
    have htail := hlhs.1.1.tail
    rw [postfixTail] at h
    split at h
    · obtain ⟨⟨args, close, mid⟩, ha, h⟩ := Outcome.bind_eq_ok_iff.1 h
      obtain ⟨hmid, hargs⟩ := ih.exprs htail ha
      exact ih.postfixTail ⟨⟨hmid, .call hlhs.1.2 hargs _⟩, hlhs.1.2.pipeKind?_call _ _⟩ h
    · obtain ⟨⟨name, s, mid⟩, hn, h⟩ := Outcome.bind_eq_ok_iff.1 h
      exact ih.postfixTail ⟨⟨(htail.expectName hn).1, .field hlhs.1.2 _ _⟩, rfl⟩ h
    · cases h
      exact hlhs

theorem surfaced_signed {op : String} (ht : Start.ofToken? t.token = some (.sign op))
    (hts : Named ts) (h : signed (fuel + 1) free op s ts = .ok (e, rest)) :
    SurfacedOperand rest e := by
  rw [signed] at h
  obtain ⟨⟨operand, mid⟩, ho, h⟩ := Outcome.bind_eq_ok_iff.1 h
  cases h
  obtain ⟨⟨hmid, hoperand⟩, -⟩ := ih.expr hts ho
  have hop : (Expr.sym op s).PipesInfix := .sym (noPipe_of_sign ht) s
  exact ⟨⟨hmid, .call hop (by simpa using hoperand) _⟩, hop.pipeKind?_call _ _⟩

theorem surfaced_lambda (hts : Named ts) (h : lambda (fuel + 1) free s ts = .ok (e, rest)) :
    SurfacedOperand rest e := by
  rw [lambda] at h
  obtain ⟨⟨open_, mid⟩, hopen, h⟩ := Outcome.bind_eq_ok_iff.1 h
  obtain ⟨⟨params, afterParams⟩, hp, h⟩ := Outcome.bind_eq_ok_iff.1 h
  obtain ⟨⟨body, afterBody⟩, hb, h⟩ := Outcome.bind_eq_ok_iff.1 h
  cases h
  obtain ⟨hafter, hparams⟩ := (hts.expect hopen).of_paramNames hp
  obtain ⟨⟨hrest, hbody⟩, -⟩ := ih.expr (hafter.dropWhile _) hb
  exact ⟨⟨hrest, .lambda hparams hbody _⟩, rfl⟩

/-- Both branches are expressions of their own. -/
theorem surfaced_conditional (hts : Named ts)
    (h : conditional (fuel + 1) free s ts = .ok (e, rest)) : SurfacedOperand rest e := by
  rw [conditional] at h
  obtain ⟨⟨open_, mid⟩, hopen, h⟩ := Outcome.bind_eq_ok_iff.1 h
  obtain ⟨⟨cond, afterCond⟩, hc, h⟩ := Outcome.bind_eq_ok_iff.1 h
  obtain ⟨⟨close, afterClose⟩, hclose, h⟩ := Outcome.bind_eq_ok_iff.1 h
  obtain ⟨⟨yes, afterYes⟩, hy, h⟩ := Outcome.bind_eq_ok_iff.1 h
  obtain ⟨⟨hafterCond, hcond⟩, -⟩ := ih.expr (hts.expect hopen) hc
  obtain ⟨⟨hafterYes, hyes⟩, -⟩ := ih.expr ((hafterCond.expect hclose).dropWhile _) hy
  -- the answer if there is no other branch
  have hthen : SurfacedOperand afterYes (.ifThen cond yes (s.join yes.span)) :=
    ⟨⟨hafterYes, .ifThen hcond hyes _⟩, rfl⟩
  dsimp only at h
  split at h
  · next u tail heq =>
    split at h
    · obtain ⟨⟨no, afterNo⟩, hn, h⟩ := Outcome.bind_eq_ok_iff.1 h
      cases h
      have htail : Named (u :: tail) := heq ▸ hafterYes.dropWhile _
      obtain ⟨⟨hrest, hno⟩, -⟩ := ih.expr (htail.tail.dropWhile _) hn
      exact ⟨⟨hrest, .ifElse hcond hyes hno _⟩, rfl⟩
    · cases h
      exact hthen
  · cases h
    exact hthen

/-- Lists of expressions, read up to the token that closes them. -/
theorem surfacedAll_exprs {close : Token} (hts : Named ts)
    (h : exprs (fuel + 1) close ts = .ok (es, s, rest)) : SurfacedAll rest es := by
  have hahead : Named (skipNewlines ts) := hts.dropWhile _
  rw [exprs] at h
  split at h
  · cases h
  · next t tail heq =>
    rw [heq] at hahead
    split at h
    · cases h
      exact ⟨hahead.tail, by simp⟩
    · obtain ⟨⟨first, mid⟩, hf, h⟩ := Outcome.bind_eq_ok_iff.1 h
      obtain ⟨⟨sep, after⟩, hs, h⟩ := Outcome.bind_eq_ok_iff.1 h
      obtain ⟨⟨hmid, hfirst⟩, -⟩ := ih.expr hahead hf
      have hafter := (hmid.next hs).tail
      dsimp only at h
      split at h
      · cases h
        exact ⟨hafter, by simpa using hfirst⟩
      · split at h
        · obtain ⟨⟨others, stop, last⟩, ho, h⟩ := Outcome.bind_eq_ok_iff.1 h
          cases h
          obtain ⟨hrest, hothers⟩ := ih.exprs hafter ho
          exact ⟨hrest, List.forall_mem_cons.2 ⟨hfirst, hothers⟩⟩
        · cases h

/-- The names of fields are identifiers. -/
theorem surfacedAll_recordFields {fields : List (String × Expr)} (hts : Named ts)
    (h : recordFields (fuel + 1) ts = .ok (fields, s, rest)) :
    SurfacedAll rest (fields.map Prod.snd) ∧ ∀ name ∈ fields.map Prod.fst, NoPipe name := by
  have hahead : Named (skipNewlines ts) := hts.dropWhile _
  rw [recordFields] at h
  split at h
  · cases h
  · next t tail heq =>
    rw [heq] at hahead
    split at h
    · cases h
      exact ⟨⟨hahead.tail, by simp⟩, by simp⟩
    · obtain ⟨⟨name, at_, afterName⟩, hn, h⟩ := Outcome.bind_eq_ok_iff.1 h
      obtain ⟨⟨colon, afterColon⟩, hcolon, h⟩ := Outcome.bind_eq_ok_iff.1 h
      obtain ⟨⟨first, mid⟩, hf, h⟩ := Outcome.bind_eq_ok_iff.1 h
      obtain ⟨⟨sep, after⟩, hs, h⟩ := Outcome.bind_eq_ok_iff.1 h
      obtain ⟨hafterName, hname⟩ := hahead.expectName hn
      obtain ⟨⟨hmid, hfirst⟩, -⟩ := ih.expr (hafterName.expect hcolon) hf
      have hafter := (hmid.next hs).tail
      dsimp only at h
      split at h
      · cases h
        exact ⟨⟨hafter, by simpa using hfirst⟩, by simpa using hname⟩
      · split at h
        · obtain ⟨⟨others, stop, last⟩, ho, h⟩ := Outcome.bind_eq_ok_iff.1 h
          cases h
          obtain ⟨⟨hrest, hothers⟩, hnames⟩ := ih.recordFields hafter ho
          exact ⟨⟨hrest, List.forall_mem_cons.2 ⟨hfirst, hothers⟩⟩,
            List.forall_mem_cons.2 ⟨hname, hnames⟩⟩
        · cases h

/-- Statements up to the end of the source or of the block. -/
theorem surfacedAll_statements {close : Option Token} (hts : Named ts)
    (h : statements (fuel + 1) close ts = .ok (es, rest)) : SurfacedAll rest es := by
  have hahead : Named (skipSeparators ts) := hts.dropWhile _
  rw [statements] at h
  split at h
  · cases h
    exact ⟨by simp [Named], by simp⟩
  · next t tail heq =>
    rw [heq] at hahead
    split at h
    · cases h
      exact ⟨hahead, by simp⟩
    · obtain ⟨⟨first, mid⟩, hf, h⟩ := Outcome.bind_eq_ok_iff.1 h
      obtain ⟨⟨hmid, hfirst⟩, -⟩ := ih.expr hahead hf
      dsimp only at h
      split at h
      · cases h
        exact ⟨hmid, by simpa using hfirst⟩
      · split at h
        · obtain ⟨⟨others, last⟩, ho, h⟩ := Outcome.bind_eq_ok_iff.1 h
          cases h
          obtain ⟨hrest, hothers⟩ := ih.statements hmid ho
          exact ⟨hrest, List.forall_mem_cons.2 ⟨hfirst, hothers⟩⟩
        · cases h

/-- An atom is plain, whatever is inside. -/
theorem surfaced_atom (hts : Named ts) (h : atom (fuel + 1) free ts = .ok (e, rest)) :
    SurfacedOperand rest e := by
  rw [atom] at h
  obtain ⟨⟨t, tail⟩, hn, h⟩ := Outcome.bind_eq_ok_iff.1 h
  have hnext := hts.next hn
  have htail := hnext.tail
  dsimp only at h
  split at h
  · cases h
  · cases h
    exact ⟨⟨htail, .lit _ _⟩, rfl⟩
  · next name hstart =>
    cases h
    have hname : NoPipe name := by
      rcases htoken : t.token <;> rw [htoken] at hstart <;> cases hstart
      · exact noPipe_placeholder
      · exact (hnext t List.mem_cons_self).1 _ htoken
    exact ⟨⟨htail, .sym hname _⟩, rfl⟩
  · next hstart => exact ih.signed hstart htail h
  · obtain ⟨⟨inner, mid⟩, hi, h⟩ := Outcome.bind_eq_ok_iff.1 h
    obtain ⟨⟨close, after⟩, hc, h⟩ := Outcome.bind_eq_ok_iff.1 h
    cases h
    obtain ⟨⟨hmid, hinner⟩, -⟩ := ih.expr htail hi
    exact ⟨⟨hmid.expect hc, .paren hinner _⟩, rfl⟩
  · obtain ⟨⟨items, close, after⟩, hi, h⟩ := Outcome.bind_eq_ok_iff.1 h
    cases h
    obtain ⟨hafter, hitems⟩ := ih.exprs htail hi
    exact ⟨⟨hafter, .list hitems _⟩, rfl⟩
  · split at h
    · obtain ⟨⟨fields, close, after⟩, hf, h⟩ := Outcome.bind_eq_ok_iff.1 h
      cases h
      obtain ⟨⟨hafter, hfields⟩, hnames⟩ := ih.recordFields htail hf
      exact ⟨⟨hafter, .record hnames hfields _⟩, rfl⟩
    · obtain ⟨⟨stmts, mid⟩, hs, h⟩ := Outcome.bind_eq_ok_iff.1 h
      obtain ⟨⟨close, after⟩, hc, h⟩ := Outcome.bind_eq_ok_iff.1 h
      cases h
      obtain ⟨hmid, hstmts⟩ := ih.statements htail hs
      exact ⟨⟨hmid.expect hc, .block hstmts _⟩, rfl⟩
  · exact ih.lambda htail h
  · exact ih.conditional htail h

omit ih in
/-- What the parser gives has its pipes between operands, with any amount of fuel. -/
theorem surfaces (fuel : Nat) : Surfaces fuel := by
  induction fuel with
  | zero =>
    constructor
    case expr => intro _ _ _ _ _ _ h; rw [expr] at h; cases h
    case infixTail => intro _ _ _ _ _ _ _ _ h; rw [infixTail] at h; cases h
    case operand => intro _ _ _ _ _ h; rw [operand] at h; cases h
    case postfixTail => intro _ _ _ _ _ _ h; rw [postfixTail] at h; cases h
    case atom => intro _ _ _ _ _ h; rw [atom] at h; cases h
    case signed => intro _ _ _ _ _ _ _ _ _ h; rw [signed] at h; cases h
    case lambda => intro _ _ _ _ _ _ h; rw [lambda] at h; cases h
    case conditional => intro _ _ _ _ _ _ h; rw [conditional] at h; cases h
    case exprs => intro _ _ _ _ _ _ h; rw [exprs] at h; cases h
    case recordFields => intro _ _ _ _ _ h; rw [recordFields] at h; cases h
    case statements => intro _ _ _ _ _ h; rw [statements] at h; cases h
  | succ fuel ih =>
    exact {
      expr := surfaced_expr ih
      infixTail := surfaced_infixTail ih
      operand := surfaced_operand ih
      postfixTail := surfaced_postfixTail ih
      atom := surfaced_atom ih
      signed := surfaced_signed ih
      lambda := surfaced_lambda ih
      conditional := surfaced_conditional ih
      exprs := surfacedAll_exprs ih
      recordFields := surfacedAll_recordFields ih
      statements := surfacedAll_statements ih }

end Parser

/-- In a program pipe operators stand between operands only, and no right operand is a pipe. -/
theorem pipesInfix_of_parseProgram {source : String} {program : List Expr}
    (h : parseProgram source = .ok program) : ∀ e ∈ program, e.PipesInfix := by
  unfold parseProgram at h
  split at h
  · next lexemes hlex =>
    obtain ⟨rest, hstatements⟩ := Parser.exists_statements_of_program h
    exact ((Parser.surfaces _).statements (.of_lexed (lexed_of_lexCode? hlex)) hstatements).2
  · cases h

end PipeLang
