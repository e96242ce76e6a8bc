import PipeLang.Proofs.Spans

/-!
# Where arguments and fields start

Arguments and fields are read after an operand if their parenthesis or dollar sign is the very next
lexeme.  Where line breaks carry meaning, an operand ends with its last lexeme, so nothing stands
between the two.  Where they carry none, an operand that ends with an operand of its own, after a
sign, a function or a conditional, has been read by a part of the parser that looks for an infix
operator, and this passes over line breaks.  So there, and only there, arguments and fields can
start on a later line (`postfixes_follow`, `arguments_after_break`).

`Adjacent` says this of all arguments and fields in an expression.  It is kept along the recursion
of the parser (`Parser.joins`).  What an operand is read from is known by `Parser.takes`; so it is
enough to follow whether a line break has been passed over, which can be seen at the lexeme before
what is left (`Tight`).
-/

namespace PipeLang

/-! ### Adjacency -/

/-- The symbol of a sign or of an infix operator among these lexemes. -/
def IsOperatorOf (lexemes : List Lexeme) (func : Expr) : Prop :=
  ∃ t ∈ lexemes, ∃ name, func = .sym name t.span ∧
    (Start.ofToken? t.token = some (.sign name) ∨
      ∃ op, InfixOp.ofToken? t.token = some op ∧ op.form = .call name)

/-- The expression ends with an operand of its own that is in no brackets: it is one of a sign, a
function or a conditional. -/
inductive Expr.IsOpen (lexemes : List Lexeme) : Expr → Prop
  | sign {t : Lexeme} {name : String} {e : Expr} {span : Span} (hmem : t ∈ lexemes)
      (ht : Start.ofToken? t.token = some (.sign name)) :
      IsOpen lexemes (.call (.sym name t.span) [e] span)
  | lambda (params : List String) (body : Expr) (span : Span) :
      IsOpen lexemes (.lambda params body span)
  | ifThen (cond yes : Expr) (span : Span) : IsOpen lexemes (.ifThen cond yes span)
  | ifElse (cond yes no : Expr) (span : Span) : IsOpen lexemes (.ifElse cond yes no span)

/-- A lexeme of this token comes directly after those that the expression is read from.  Only after
an open expression, where line breaks carry no meaning, may some of them stand between. -/
def FollowedBy (lexemes : List Lexeme) (free : Bool) (e : Expr) (token : Token) : Prop :=
  ∃ before us gap next after, lexemes = before ++ us ++ gap ++ next :: after ∧ Reads us e ∧
    next.token = token ∧ (gap = [] ∨ Breaks gap ∧ free = true ∧ e.IsOpen lexemes)

/-- All arguments and fields in the expression follow what they apply to.  The expression stands
where line breaks carry no meaning, or where they do: between parentheses, between brackets, in
records, arguments and conditions they carry none, and in blocks they do. -/
inductive Adjacent (lexemes : List Lexeme) : Bool → Expr → Prop
  | lit (free : Bool) (literal : Literal) (span : Span) : Adjacent lexemes free (.lit literal span)
  | sym (free : Bool) (name : String) (span : Span) : Adjacent lexemes free (.sym name span)
  | operator {free : Bool} {func : Expr} {operands : List Expr} {span : Span}
      (hfunc : IsOperatorOf lexemes func) (hoperands : ∀ e ∈ operands, Adjacent lexemes free e) :
      Adjacent lexemes free (.call func operands span)
  | call {free : Bool} {func : Expr} {args : List Expr} {span : Span}
      (hfollowed : FollowedBy lexemes free func .leftParen) (hfunc : Adjacent lexemes free func)
      (hargs : ∀ e ∈ args, Adjacent lexemes true e) : Adjacent lexemes free (.call func args span)
  | field {free : Bool} {target : Expr} {name : String} {span : Span}
      (hfollowed : FollowedBy lexemes free target .dollar)
      (htarget : Adjacent lexemes free target) :
      Adjacent lexemes free (.field target name span)
  | paren {free : Bool} {inner : Expr} {span : Span} (hinner : Adjacent lexemes true inner) :
      Adjacent lexemes free (.paren inner span)
  | list {free : Bool} {items : List Expr} {span : Span}
      (hitems : ∀ e ∈ items, Adjacent lexemes true e) : Adjacent lexemes free (.list items span)
  | record {free : Bool} {fields : List (String × Expr)} {span : Span}
      (hfields : ∀ e ∈ fields.map Prod.snd, Adjacent lexemes true e) :
      Adjacent lexemes free (.record fields span)
  | block {free : Bool} {stmts : List Expr} {span : Span}
      (hstmts : ∀ e ∈ stmts, Adjacent lexemes false e) : Adjacent lexemes free (.block stmts span)
  | lambda {free : Bool} {params : List String} {body : Expr} {span : Span}
      (hbody : Adjacent lexemes free body) : Adjacent lexemes free (.lambda params body span)
  | ifThen {free : Bool} {cond yes : Expr} {span : Span} (hcond : Adjacent lexemes true cond)
      (hyes : Adjacent lexemes free yes) : Adjacent lexemes free (.ifThen cond yes span)
  | ifElse {free : Bool} {cond yes no : Expr} {span : Span} (hcond : Adjacent lexemes true cond)
      (hyes : Adjacent lexemes free yes) (hno : Adjacent lexemes free no) :
      Adjacent lexemes free (.ifElse cond yes no span)
  | assign {free : Bool} {target value : Expr} {scope : AssignScope} {span : Span}
      (htarget : Adjacent lexemes free target) (hvalue : Adjacent lexemes free value) :
      Adjacent lexemes free (.assign target value scope span)

namespace Parser

variable {lexemes : List Lexeme} {free : Bool} {least fuel : Nat} {e lhs : Expr} {es : List Expr}
  {s : Span} {t : Lexeme} {ts rest : List Lexeme} {name : String}

/-! ### What is left -/

/-- Some lexemes are left, and the one before them is no line break. -/
def Tight (lexemes rest : List Lexeme) : Prop :=
  ∃ before last, lexemes = before ++ last :: rest ∧ last.token ≠ .newline

theorem tight_of_suffix (h : t :: rest <:+ lexemes) (ht : t.token ≠ .newline) :
    Tight lexemes rest := by
  obtain ⟨before, hbefore⟩ := h
  exact ⟨before, t, hbefore.symm, ht⟩

/-- No line breaks stand before what is left if the lexeme before it is none. -/
theorem Tight.eq_nil (h : Tight lexemes rest) {before gap : List Lexeme} (hgap : Breaks gap)
    (hsplit : lexemes = before ++ gap ++ rest) : gap = [] := by
  obtain ⟨before', last, hlexemes, hlast⟩ := h
  have hbefore : before' ++ [last] = before ++ gap := by
    have hsame : (before' ++ [last]) ++ rest = before ++ gap ++ rest := by
      rw [← hsplit, hlexemes, List.append_assoc, List.singleton_append]
    exact List.append_cancel_right hsame
  rcases List.eq_nil_or_concat gap with rfl | ⟨init, u, rfl⟩
  · rfl
  · rw [List.concat_eq_append, ← List.append_assoc] at hbefore
    obtain rfl := List.singleton_inj.1 (List.append_inj_right' hbefore rfl)
    exact absurd (hgap last (by simp)) hlast

theorem suffix_skipNewlines (ts : List Lexeme) : skipNewlines ts <:+ ts :=
  List.dropWhile_suffix _

theorem suffix_ahead (free : Bool) (ts : List Lexeme) : ahead free ts <:+ ts := by
  cases free
  · exact List.suffix_rfl
  · exact suffix_skipNewlines ts

theorem suffix_of_ahead (h : ahead free ts = t :: rest) : rest <:+ ts :=
  (List.suffix_cons t rest).trans (h ▸ suffix_ahead free ts)

theorem suffix_of_next (h : next free ts = .ok (t, rest)) : rest <:+ ts :=
  suffix_of_ahead (ahead_of_next h)

theorem suffix_of_expect {token : Token} {what : String}
    (h : expect free token what ts = .ok (t, rest)) : rest <:+ ts :=
  suffix_of_ahead (ahead_of_expect h).1

theorem suffix_of_expectName {what : String}
    (h : expectName free what ts = .ok (name, s, rest)) : rest <:+ ts := by
  obtain ⟨_, hahead, -, -⟩ := exists_ahead_of_expectName h
  exact suffix_of_ahead hahead

theorem tight_of_expect {token : Token} {what : String} (hts : ts <:+ lexemes)
    (h : expect free token what ts = .ok (t, rest)) (htoken : token ≠ .newline) :
    Tight lexemes rest := by
  obtain ⟨hahead, ht⟩ := ahead_of_expect h
  have hstart : t :: rest <:+ ts := hahead ▸ suffix_ahead free ts
  exact tight_of_suffix (hstart.trans hts) (ht ▸ htoken)

theorem Begins.suffix {P : List Lexeme → Expr → Prop} (h : Begins P ts e rest) : rest <:+ ts := by
  obtain ⟨us, gap, htotal, -, -⟩ := h
  exact ⟨us ++ gap, htotal.symm⟩

theorem Follows.suffix {P : List Lexeme → Expr → Prop} (h : Follows P ts e rest) :
    rest <:+ ts := by
  obtain ⟨gap, tail, htotal, -, hbegins⟩ := h
  exact hbegins.suffix.trans ⟨gap, htotal.symm⟩

/-- An operand has been read, and line breaks have been passed over after it only if it is open and
they carry no meaning. -/
structure StandsBefore (lexemes : List Lexeme) (free : Bool) (e : Expr) (rest : List Lexeme) :
    Prop where
  reads : ∃ before us gap, lexemes = before ++ us ++ gap ++ rest ∧ Breaks gap ∧ ReadsOperand us e
  tight : Tight lexemes rest ∨ free = true ∧ e.IsOpen lexemes

theorem StandsBefore.followedBy (h : StandsBefore lexemes free e (t :: rest)) :
    FollowedBy lexemes free e t.token := by
  obtain ⟨⟨before, us, gap, hsplit, hgap, hread, -⟩, htight⟩ := h
  refine ⟨before, us, gap, t, rest, hsplit, hread, rfl, ?_⟩
  rcases htight with htight | hopen
  · exact .inl (htight.eq_nil hgap hsplit)
  · exact .inr ⟨hgap, hopen⟩

theorem Follows.standsBefore (h : Follows ReadsOperand ts e rest) (hts : ts <:+ lexemes)
    (htight : Tight lexemes rest ∨ free = true ∧ e.IsOpen lexemes) :
    StandsBefore lexemes free e rest := by
  obtain ⟨before, rfl⟩ := hts
  obtain ⟨gap, tail, rfl, -, us, gap', rfl, hgap', hread⟩ := h
  exact ⟨⟨before ++ gap, us, gap', by simp only [List.append_assoc], hgap', hread⟩, htight⟩

/-! ### Along the recursion -/

/-- Arguments and fields have been read where they follow what they apply to, and where line breaks
carry meaning none has been passed over at the end. -/
structure Ends (lexemes : List Lexeme) (free : Bool) (e : Expr) (rest : List Lexeme) : Prop where
  adjacent : Adjacent lexemes free e
  tight : free = false → Tight lexemes rest

/-- The same of an atom, after which line breaks have been passed over only if it is open. -/
structure EndsAtom (lexemes : List Lexeme) (free : Bool) (e : Expr) (rest : List Lexeme) :
    Prop where
  adjacent : Adjacent lexemes free e
  tight : Tight lexemes rest ∨ free = true ∧ e.IsOpen lexemes

theorem EndsAtom.of_isOpen (h : e.IsOpen lexemes) (hadjacent : Adjacent lexemes free e)
    (htight : free = false → Tight lexemes rest) : EndsAtom lexemes free e rest := by
  refine ⟨hadjacent, ?_⟩
  cases free with
  | false => exact .inl (htight rfl)
  | true => exact .inr ⟨rfl, h⟩

/-- What each part of the parser makes of lexemes at the end of them all, at one amount of fuel. -/
structure Joins (lexemes : List Lexeme) (fuel : Nat) : Prop where
  expr : ∀ {free least ts e rest}, ts <:+ lexemes → expr fuel free least ts = .ok (e, rest) →
    Ends lexemes free e rest
  infixTail : ∀ {free least lhs ts e rest}, ts <:+ lexemes → Ends lexemes free lhs ts →
    infixTail fuel free least lhs ts = .ok (e, rest) → Ends lexemes free e rest
  operand : ∀ {free ts e rest}, ts <:+ lexemes → operand fuel free ts = .ok (e, rest) →
    Ends lexemes free e rest
  postfixTail : ∀ {free lhs ts e rest}, StandsBefore lexemes free lhs ts →
    Adjacent lexemes free lhs → postfixTail fuel free lhs ts = .ok (e, rest) →
    Ends lexemes free e rest
  atom : ∀ {free ts e rest}, ts <:+ lexemes → atom fuel free ts = .ok (e, rest) →
    EndsAtom lexemes free e rest
  signed : ∀ {free op t ts e rest}, Start.ofToken? t.token = some (.sign op) →
    t :: ts <:+ lexemes → signed fuel free op t.span ts = .ok (e, rest) →
    EndsAtom lexemes free e rest
  lambda : ∀ {free s ts e rest}, ts <:+ lexemes → lambda fuel free s ts = .ok (e, rest) →
    EndsAtom lexemes free e rest
  conditional : ∀ {free s ts e rest}, ts <:+ lexemes → conditional fuel free s ts = .ok (e, rest) →
    EndsAtom lexemes free e rest
  exprs : ∀ {close ts es s rest}, ts <:+ lexemes → exprs fuel close ts = .ok (es, s, rest) →
    ∀ e ∈ es, Adjacent lexemes true e
  recordFields : ∀ {ts fields s rest}, ts <:+ lexemes →
    recordFields fuel ts = .ok (fields, s, rest) →
    ∀ e ∈ fields.map Prod.snd, Adjacent lexemes true e
  statements : ∀ {close ts es rest}, ts <:+ lexemes → statements fuel close ts = .ok (es, rest) →
    ∀ e ∈ es, Adjacent lexemes false e

/-- An infix operator has its operands where it stands itself. -/
theorem adjacent_apply {op : InfixOp} {rhs : Expr} (ht : t ∈ lexemes)
    (hop : InfixOp.ofToken? t.token = some op) (hlhs : Adjacent lexemes free lhs)
    (hrhs : Adjacent lexemes free rhs) : Adjacent lexemes free (op.apply t.span lhs rhs) := by
  unfold InfixOp.apply
  split
  · next name hname =>
    exact .operator ⟨t, ht, name, rfl, .inr ⟨op, hop, hname⟩⟩ (by simpa using ⟨hlhs, hrhs⟩)
  · exact .assign hlhs hrhs

section

variable (ih : Joins lexemes fuel)

include ih

theorem joins_expr (hts : ts <:+ lexemes) (h : expr (fuel + 1) free least ts = .ok (e, rest)) :
    Ends lexemes free e rest := by
  rw [expr] at h
  obtain ⟨⟨lhs, mid⟩, ho, hi⟩ := Outcome.bind_eq_ok_iff.1 h
  exact ih.infixTail (((takes fuel).operand ho).suffix.trans hts) (ih.operand hts ho) hi

theorem joins_infixTail (hts : ts <:+ lexemes) (hlhs : Ends lexemes free lhs ts)
    (h : infixTail (fuel + 1) free least lhs ts = .ok (e, rest)) : Ends lexemes free e rest := by
  -- where line breaks carry meaning, none is passed over to look for an operator
  have halone : ahead free ts = rest → Ends lexemes free lhs rest := by
    rintro rfl
    refine ⟨hlhs.adjacent, ?_⟩
    rintro rfl
    exact hlhs.tight rfl
  have hahead := (suffix_ahead free ts).trans hts
  rw [infixTail] at h
  split at h
  · next heq =>
    cases h
    exact halone heq
  · next t tail heq =>
    rw [heq] at hahead
    split at h
    · cases h
      exact halone heq
    · next op hop =>
      split at h
      · cases h
        exact halone heq
      · obtain ⟨⟨rhs, mid⟩, hr, hi⟩ := Outcome.bind_eq_ok_iff.1 h
        have htail : skipNewlines tail <:+ lexemes :=
          (suffix_skipNewlines tail).trans ((suffix_of_ahead heq).trans hts)
        have hrhs := ih.expr htail hr
        have happly := adjacent_apply (hahead.subset List.mem_cons_self) hop hlhs.adjacent
          hrhs.adjacent
        exact ih.infixTail (((takes fuel).expr hr).suffix.trans htail) ⟨happly, hrhs.tight⟩ hi

theorem joins_operand (hts : ts <:+ lexemes) (h : operand (fuel + 1) free ts = .ok (e, rest)) :
    Ends lexemes free e rest := by
  rw [operand] at h
  obtain ⟨⟨lhs, mid⟩, ha, hp⟩ := Outcome.bind_eq_ok_iff.1 h
  have hatom := ih.atom hts ha
  exact ih.postfixTail (((takes fuel).atom ha).standsBefore hts hatom.tight) hatom.adjacent hp

/-- Arguments and fields are taken from the token that is next, whether it is on the same line or
not. -/
theorem joins_postfixTail (hlhs : StandsBefore lexemes free lhs ts)
    (hadjacent : Adjacent lexemes free lhs)
    (h : postfixTail (fuel + 1) free lhs ts = .ok (e, rest)) : Ends lexemes free e rest := by
  -- if nothing follows, the operand ends as it stands
  have halone : Ends lexemes free lhs ts := by
    refine ⟨hadjacent, ?_⟩
    rintro rfl
    exact hlhs.tight.resolve_right (by simp)
  obtain ⟨before, us, gap, hsplit, hgap, hread⟩ := hlhs.reads
  have hread : ReadsOperand us lhs := hread
  cases ts with
  | nil =>
    rw [postfixTail] at h
    cases h
    exact halone
  | cons t tail =>
    have hts : t :: tail <:+ lexemes := ⟨before ++ us ++ gap, hsplit.symm⟩
    have htail : tail <:+ lexemes := (List.suffix_cons t tail).trans hts
    have hfollowed := hlhs.followedBy
    rw [postfixTail] at h
    split at h
    · next ht =>
      obtain ⟨⟨args, close, mid⟩, ha, hp⟩ := Outcome.bind_eq_ok_iff.1 h
      have hargs := ih.exprs htail ha
      obtain ⟨inside, closing, rfl, hclosing, rfl, parts, rfl, hinside, hparts⟩ :=
        (takes fuel).exprs ha
      have hcall := hread.call hgap ht hclosing hinside hparts
      refine ih.postfixTail ⟨⟨before, _, [], ?_, breaks_nil, hcall⟩, .inl ?_⟩
        (.call (ht ▸ hfollowed) hadjacent hargs) hp
      · rw [hsplit]
        simp only [List.append_assoc, List.cons_append, List.nil_append]
      · exact tight_of_suffix ((List.suffix_append inside _).trans htail) (by simp [hclosing])
    · next ht =>
      obtain ⟨⟨name, s, mid⟩, hn, hp⟩ := Outcome.bind_eq_ok_iff.1 h
      obtain ⟨gap', key, hgap', rfl, hkey, rfl⟩ := exists_breaks_of_expectName hn
      have hfield := hread.field hgap ht hgap' hkey
      refine ih.postfixTail ⟨⟨before, _, [], ?_, breaks_nil, hfield⟩, .inl ?_⟩
        (.field (ht ▸ hfollowed) hadjacent) hp
      · rw [hsplit]
        simp only [List.append_assoc, List.cons_append, List.nil_append]
      · exact tight_of_suffix ((List.suffix_append gap' _).trans htail) (by simp [hkey])
    · cases h
      exact halone

theorem joins_signed {op : String} (ht : Start.ofToken? t.token = some (.sign op))
    (hts : t :: ts <:+ lexemes) (h : signed (fuel + 1) free op t.span ts = .ok (e, rest)) :
    EndsAtom lexemes free e rest := by
  rw [signed] at h
  obtain ⟨⟨operand, mid⟩, ho, h⟩ := Outcome.bind_eq_ok_iff.1 h
  cases h
  have hmem := hts.subset List.mem_cons_self
  have hoperand := ih.expr ((List.suffix_cons t ts).trans hts) ho
  refine .of_isOpen (.sign hmem ht) (.operator ⟨t, hmem, op, rfl, .inl ht⟩ ?_) hoperand.tight
  simpa using hoperand.adjacent

theorem joins_lambda (hts : ts <:+ lexemes)
    (h : lambda (fuel + 1) free s ts = .ok (e, rest)) : EndsAtom lexemes free e rest := by
  rw [lambda] at h
  obtain ⟨⟨opening, afterOpen⟩, hopen, h⟩ := Outcome.bind_eq_ok_iff.1 h
  obtain ⟨⟨params, afterParams⟩, hp, h⟩ := Outcome.bind_eq_ok_iff.1 h
  obtain ⟨⟨body, afterBody⟩, hb, h⟩ := Outcome.bind_eq_ok_iff.1 h
  cases h
  obtain ⟨inner, -, rfl⟩ := exists_params_of_paramNames hp
  have hopening := (suffix_of_expect hopen).trans hts
  have hparams := (List.suffix_append inner afterParams).trans hopening
  have hbody := ih.expr ((suffix_skipNewlines afterParams).trans hparams) hb
  exact .of_isOpen (.lambda _ _ _) (.lambda hbody.adjacent) hbody.tight

/-- A conditional ends as its last branch does. -/
theorem joins_conditional (hts : ts <:+ lexemes)
    (h : conditional (fuel + 1) free s ts = .ok (e, rest)) : EndsAtom lexemes free e rest := by
  rw [conditional] at h
  obtain ⟨⟨opening, afterOpen⟩, hopen, h₁⟩ := Outcome.bind_eq_ok_iff.1 h
  obtain ⟨⟨cond, afterCond⟩, hc, h₂⟩ := Outcome.bind_eq_ok_iff.1 h₁
  obtain ⟨⟨closing, afterClose⟩, hclose, h₃⟩ := Outcome.bind_eq_ok_iff.1 h₂
  obtain ⟨⟨yes, afterYes⟩, hy, h₄⟩ := Outcome.bind_eq_ok_iff.1 h₃
  clear h h₁ h₂ h₃
  have hopening := (suffix_of_expect hopen).trans hts
  have hcond := ih.expr hopening hc
  have hclosing := ((takes fuel).expr hc).suffix.trans hopening
  have hbranch := (suffix_skipNewlines afterClose).trans ((suffix_of_expect hclose).trans hclosing)
  have hyes := ih.expr hbranch hy
  have hafter := ((takes fuel).expr hy).suffix.trans hbranch
  -- newlines are skipped for `else`, and given back if there is none
  have hthen : EndsAtom lexemes free (.ifThen cond yes (s.join yes.span)) afterYes :=
    .of_isOpen (.ifThen _ _ _) (.ifThen hcond.adjacent hyes.adjacent) hyes.tight
  dsimp only at h₄
  split at h₄
  · next word tail heq =>
    split at h₄
    · obtain ⟨⟨no, afterNo⟩, hn, h⟩ := Outcome.bind_eq_ok_iff.1 h₄
      cases h
      have hword : word :: tail <:+ afterYes := heq ▸ suffix_skipNewlines afterYes
      have htail := (List.suffix_cons word tail).trans (hword.trans hafter)
      have hno := ih.expr ((suffix_skipNewlines tail).trans htail) hn
      exact .of_isOpen (.ifElse _ _ _ _) (.ifElse hcond.adjacent hyes.adjacent hno.adjacent)
        hno.tight
    · cases h₄
      exact hthen
  · cases h₄
    exact hthen

/-- Inside of parentheses and brackets newlines are skipped. -/
theorem joins_exprs {close : Token} (hts : ts <:+ lexemes)
    (h : exprs (fuel + 1) close ts = .ok (es, s, rest)) : ∀ e ∈ es, Adjacent lexemes true e := by
  rw [exprs] at h
  split at h
  · cases h
  · next t tail heq =>
    split at h
    · cases h
      simp
    · obtain ⟨⟨first, mid⟩, hf, h₁⟩ := Outcome.bind_eq_ok_iff.1 h
      obtain ⟨⟨sep, after⟩, hs, h₂⟩ := Outcome.bind_eq_ok_iff.1 h₁
      clear h h₁
      have hstart : t :: tail <:+ lexemes := heq ▸ (suffix_skipNewlines ts).trans hts
      have hfirst := (ih.expr hstart hf).adjacent
      have hmid := ((takes fuel).expr hf).suffix.trans hstart
      have hafter := (suffix_of_next hs).trans hmid
      dsimp only at h₂
      split at h₂
      · cases h₂
        simpa using hfirst
      · split at h₂
        · obtain ⟨⟨others, stop, last⟩, ho, h⟩ := Outcome.bind_eq_ok_iff.1 h₂
          cases h
          exact List.forall_mem_cons.2 ⟨hfirst, ih.exprs hafter ho⟩
        · cases h₂

/-- Inside of a record too. -/
theorem joins_recordFields {fields : List (String × Expr)} (hts : ts <:+ lexemes)
    (h : recordFields (fuel + 1) ts = .ok (fields, s, rest)) :
    ∀ e ∈ fields.map Prod.snd, Adjacent lexemes true e := by
  rw [recordFields] at h
  split at h
  · cases h
  · next t tail heq =>
    split at h
    · cases h
      simp
    · obtain ⟨⟨name, at_, afterName⟩, hn, h₁⟩ := Outcome.bind_eq_ok_iff.1 h
      obtain ⟨⟨colon, afterColon⟩, hc, h₂⟩ := Outcome.bind_eq_ok_iff.1 h₁
      obtain ⟨⟨first, mid⟩, hf, h₃⟩ := Outcome.bind_eq_ok_iff.1 h₂
      obtain ⟨⟨sep, after⟩, hs, h₄⟩ := Outcome.bind_eq_ok_iff.1 h₃
      clear h h₁ h₂ h₃
      have hstart : t :: tail <:+ lexemes := heq ▸ (suffix_skipNewlines ts).trans hts
      have hname := (suffix_of_expectName hn).trans hstart
      have hcolon := (suffix_of_expect hc).trans hname
      have hfirst := (ih.expr hcolon hf).adjacent
      have hmid := ((takes fuel).expr hf).suffix.trans hcolon
      have hafter := (suffix_of_next hs).trans hmid
      dsimp only at h₄
      split at h₄
      · cases h₄
        simpa using hfirst
      · split at h₄
        · obtain ⟨⟨others, stop, last⟩, ho, h⟩ := Outcome.bind_eq_ok_iff.1 h₄
          cases h
          exact List.forall_mem_cons.2 ⟨hfirst, ih.recordFields hafter ho⟩
        · cases h₄

/-- Statements are read where newlines have a meaning. -/
theorem joins_statements {close : Option Token} (hts : ts <:+ lexemes)
    (h : statements (fuel + 1) close ts = .ok (es, rest)) :
    ∀ e ∈ es, Adjacent lexemes false e := by
  rw [statements] at h
  split at h
  · cases h
    simp
  · next t tail heq =>
    split at h
    · cases h
      simp
    · obtain ⟨⟨first, mid⟩, hf, h₁⟩ := Outcome.bind_eq_ok_iff.1 h
      clear h
      have hstart : t :: tail <:+ lexemes := heq ▸ (List.dropWhile_suffix _).trans hts
      have hfirst := (ih.expr hstart hf).adjacent
      have hmid := ((takes fuel).expr hf).suffix.trans hstart
      dsimp only at h₁
      split at h₁
      · cases h₁
        simpa using hfirst
      · split at h₁
        · obtain ⟨⟨others, last⟩, ho, h⟩ := Outcome.bind_eq_ok_iff.1 h₁
          cases h
          exact List.forall_mem_cons.2 ⟨hfirst, ih.statements hmid ho⟩
        · cases h₁

/-- Atoms that end with a token of their own leave nothing behind a newline. -/
theorem joins_atom (hts : ts <:+ lexemes) (h : atom (fuel + 1) free ts = .ok (e, rest)) :
    EndsAtom lexemes free e rest := by
  rw [atom] at h
  obtain ⟨⟨t, tail⟩, hn, h₁⟩ := Outcome.bind_eq_ok_iff.1 h
  clear h
  have hstart : t :: tail <:+ lexemes := ahead_of_next hn ▸ (suffix_ahead free ts).trans hts
  have htail := (suffix_of_next hn).trans hts
  dsimp only at h₁
  split at h₁
  · cases h₁
  · next ht =>
    cases h₁
    exact ⟨.lit _ _ _, .inl (tight_of_suffix hstart (ne_newline_of_start ht))⟩
  · next ht =>
    cases h₁
    exact ⟨.sym _ _ _, .inl (tight_of_suffix hstart (ne_newline_of_start ht))⟩
  · next op ht => exact ih.signed ht hstart h₁
  · obtain ⟨⟨inner, mid⟩, hi, h₂⟩ := Outcome.bind_eq_ok_iff.1 h₁
    obtain ⟨⟨closing, after⟩, hc, h₃⟩ := Outcome.bind_eq_ok_iff.1 h₂
    cases h₃
    clear h₁ h₂
    have hmid := ((takes fuel).expr hi).suffix.trans htail
    exact ⟨.paren (ih.expr htail hi).adjacent, .inl (tight_of_expect hmid hc (by decide))⟩
  · obtain ⟨⟨items, close, after⟩, hi, h₂⟩ := Outcome.bind_eq_ok_iff.1 h₁
    cases h₂
    obtain ⟨inside, closing, rfl, hclosing, -, -⟩ := (takes fuel).exprs hi
    -- the closing bracket stands before what is left
    have hend := (List.suffix_append inside _).trans htail
    exact ⟨.list (ih.exprs htail hi), .inl (tight_of_suffix hend (by simp [hclosing]))⟩
  · split at h₁
    · obtain ⟨⟨fields, close, after⟩, hf, h₂⟩ := Outcome.bind_eq_ok_iff.1 h₁
      cases h₂
      obtain ⟨inside, closing, rfl, hclosing, -, -⟩ := (takes fuel).recordFields hf
      have hend := (List.suffix_append inside _).trans htail
      exact ⟨.record (ih.recordFields htail hf), .inl (tight_of_suffix hend (by simp [hclosing]))⟩
    · obtain ⟨⟨stmts, mid⟩, hs, h₂⟩ := Outcome.bind_eq_ok_iff.1 h₁
      obtain ⟨⟨closing, after⟩, hc, h₃⟩ := Outcome.bind_eq_ok_iff.1 h₂
      cases h₃
      clear h₁ h₂
      obtain ⟨inside, hinside, -⟩ := (takes fuel).statements hs
      have hmid : mid <:+ lexemes := (hinside ▸ List.suffix_append inside mid).trans htail
      exact ⟨.block (ih.statements htail hs), .inl (tight_of_expect hmid hc (by decide))⟩
  · exact ih.lambda htail h₁
  · exact ih.conditional htail h₁

end

/-- With any amount of fuel. -/
theorem joins (lexemes : List Lexeme) (fuel : Nat) : Joins lexemes fuel := by
  induction fuel with
  | zero =>
    constructor
    case expr => intro _ _ _ _ _ _ h; rw [expr] at h; cases h
    case infixTail => intro _ _ _ _ _ _ _ _ h; rw [infixTail] at h; cases h
    case operand => intro _ _ _ _ _ h; rw [operand] at h; cases h
    case postfixTail => intro _ _ _ _ _ _ _ h; rw [postfixTail] at h; cases h
    case atom => intro _ _ _ _ _ h; rw [atom] at h; cases h
    case signed => intro _ _ _ _ _ _ _ _ h; rw [signed] at h; cases h
    case lambda => intro _ _ _ _ _ _ h; rw [lambda] at h; cases h
    case conditional => intro _ _ _ _ _ _ h; rw [conditional] at h; cases h
    case exprs => intro _ _ _ _ _ _ h; rw [exprs] at h; cases h
    case recordFields => intro _ _ _ _ _ h; rw [recordFields] at h; cases h
    case statements => intro _ _ _ _ _ h; rw [statements] at h; cases h
  | succ fuel ih =>
    exact {
      expr := joins_expr ih
      infixTail := joins_infixTail ih
      operand := joins_operand ih
      postfixTail := joins_postfixTail ih
      atom := joins_atom ih
      signed := joins_signed ih
      lambda := joins_lambda ih
      conditional := joins_conditional ih
      exprs := joins_exprs ih
      recordFields := joins_recordFields ih
      statements := joins_statements ih }

end Parser

/-- In a program all arguments and fields follow what they apply to. -/
theorem postfixes_follow {source : String} {program : List Expr}
    (h : parseProgram source = .ok program) :
    ∃ lexemes, lexCode? source = .ok lexemes ∧ ∀ e ∈ program, Adjacent lexemes false e := by
  unfold parseProgram at h
  split at h
  · next lexemes hlex =>
    have hstatements := Parser.statements_of_program h
    exact ⟨lexemes, hlex, (Parser.joins lexemes _).statements List.suffix_rfl hstatements⟩
  · cases h

/-- The field of a call. -/
theorem dollar_follows_call : ∃ lexemes, lexCode? "f(x)$y" = .ok lexemes ∧
    FollowedBy lexemes false (.call (.sym "f" ⟨0, 1⟩) [.sym "x" ⟨2, 1⟩] ⟨0, 4⟩) .dollar ∧
    FollowedBy lexemes false (.sym "f" ⟨0, 1⟩) .leftParen := by
  have hscan : Scan.ofChars 0 "f(x)$y".toList = ⟨[⟨.ident "f", ⟨0, 1⟩, "f"⟩,
      ⟨.leftParen, ⟨1, 1⟩, "("⟩, ⟨.ident "x", ⟨2, 1⟩, "x"⟩, ⟨.rightParen, ⟨3, 1⟩, ")"⟩,
      ⟨.dollar, ⟨4, 1⟩, "$"⟩, ⟨.ident "y", ⟨5, 1⟩, "y"⟩], none⟩ := by decide +kernel
  have hparse : parseProgram "f(x)$y" = .ok [.field (.call (.sym "f" ⟨0, 1⟩) [.sym "x" ⟨2, 1⟩]
      ⟨0, 4⟩) "y" ⟨0, 6⟩] := by
    rw [parseProgram, lexCode?_of_ofChars hscan]
    rfl
  obtain ⟨lexemes, hlex, hadjacent⟩ := postfixes_follow hparse
  refine ⟨lexemes, hlex, ?_⟩
  cases hadjacent _ List.mem_cons_self with
  | field hdollar hcall =>
    refine ⟨hdollar, ?_⟩
    cases hcall with
    | call hfollowed => exact hfollowed
    | operator hfunc =>
      -- the lexeme of the callee is a name
      obtain ⟨t, ht, name, heq, hsign⟩ := hfunc
      rw [lexCode?_of_ofChars hscan] at hlex
      cases hlex
      replace ht := List.mem_of_mem_filter ht
      simp only [List.mem_cons, List.not_mem_nil, or_false] at ht
      rcases ht with rfl | rfl | rfl | rfl | rfl | rfl <;> cases heq
      rcases hsign with hsign | ⟨op, hop, -⟩
      · cases hsign
      · cases hop

/-- After a sign between parentheses the arguments are on the next line; without the sign there are
none. -/
theorem arguments_after_break :
    lexCode? "(-x\n(y))" = .ok [⟨.leftParen, ⟨0, 1⟩, "("⟩, ⟨.minus, ⟨1, 1⟩, "-"⟩,
      ⟨.ident "x", ⟨2, 1⟩, "x"⟩, ⟨.newline, ⟨3, 1⟩, "\n"⟩, ⟨.leftParen, ⟨4, 1⟩, "("⟩,
      ⟨.ident "y", ⟨5, 1⟩, "y"⟩, ⟨.rightParen, ⟨6, 1⟩, ")"⟩, ⟨.rightParen, ⟨7, 1⟩, ")"⟩] ∧
    parseProgram "(-x\n(y))" = .ok [.paren (.call (.call (.sym "neg" ⟨1, 1⟩) [.sym "x" ⟨2, 1⟩]
      ⟨1, 2⟩) [.sym "y" ⟨5, 1⟩] ⟨1, 6⟩) ⟨0, 8⟩] ∧
    parseProgram "(x\n(y))" = .error (.expected ")" ⟨.leftParen, ⟨3, 1⟩, "("⟩) := by
  have hscan : Scan.ofChars 0 "(-x\n(y))".toList = ⟨[⟨.leftParen, ⟨0, 1⟩, "("⟩,
      ⟨.minus, ⟨1, 1⟩, "-"⟩, ⟨.ident "x", ⟨2, 1⟩, "x"⟩, ⟨.newline, ⟨3, 1⟩, "\n"⟩,
      ⟨.leftParen, ⟨4, 1⟩, "("⟩, ⟨.ident "y", ⟨5, 1⟩, "y"⟩, ⟨.rightParen, ⟨6, 1⟩, ")"⟩,
      ⟨.rightParen, ⟨7, 1⟩, ")"⟩], none⟩ := by decide +kernel
  have hscan' : Scan.ofChars 0 "(x\n(y))".toList = ⟨[⟨.leftParen, ⟨0, 1⟩, "("⟩,
      ⟨.ident "x", ⟨1, 1⟩, "x"⟩, ⟨.newline, ⟨2, 1⟩, "\n"⟩, ⟨.leftParen, ⟨3, 1⟩, "("⟩,
      ⟨.ident "y", ⟨4, 1⟩, "y"⟩, ⟨.rightParen, ⟨5, 1⟩, ")"⟩, ⟨.rightParen, ⟨6, 1⟩, ")"⟩],
      none⟩ := by decide +kernel
  refine ⟨lexCode?_of_ofChars hscan, ?_, ?_⟩
  · rw [parseProgram, lexCode?_of_ofChars hscan]
    rfl
  · rw [parseProgram, lexCode?_of_ofChars hscan']
    rfl

end PipeLang
