import PipeLang.Proofs.Joining

/-!
# The lexemes of a construct

`Construct` lists the constructs of the language: for each of them the lexemes that it is made of,
the expression that it stands for with its span, and its parts in written order, each with its own
lexemes.  An expression is read from lexemes (`Reads`) if these are a construct whose parts are read
from theirs.  No construct begins or ends with a line break.

`Parser.reads_of_program` says that a program is read from all of its lexemes: the statements in
their order, with line breaks and semicolons between them.  This is shown along the recursion of
the parser, with one statement for each of its parts (`Parser.Takes`), by induction on the fuel.
-/

namespace PipeLang

/-- Lexemes with the expression that is read from them. -/
abbrev Segment := List Lexeme × Expr

/-- These lexemes are the segments in their order, with other lexemes of these tokens around
them. -/
inductive Between (other : Token → Prop) : List Lexeme → List Segment → Prop
  | nil {gap : List Lexeme} (hgap : ∀ t ∈ gap, other t.token) : Between other gap []
  | cons {gap rest : List Lexeme} (segment : Segment) {parts : List Segment}
      (hgap : ∀ t ∈ gap, other t.token) (h : Between other rest parts) :
      Between other (gap ++ segment.1 ++ rest) (segment :: parts)

/-- A line break. -/
def Token.IsBreak (t : Token) : Prop := t = .newline

/-- These lexemes are line breaks. -/
def Breaks (gap : List Lexeme) : Prop := ∀ t ∈ gap, t.token.IsBreak

/-- What stands between the items of a list and between arguments. -/
def Token.IsItemGap (t : Token) : Prop := t = .newline ∨ t = .comma

/-- What stands before the values of a record and between them. -/
def Token.IsFieldGap (t : Token) : Prop :=
  t = .newline ∨ t = .comma ∨ t = .colon ∨ ∃ name, t = .ident name

/-- What stands between statements. -/
def Token.IsStatementGap (t : Token) : Prop := t = .newline ∨ t = .semicolon

/-- What stands around the parameters of a function, and these. -/
def Token.IsParamGap (t : Token) : Prop :=
  t = .newline ∨ t = .comma ∨ t = .leftParen ∨ t = .rightParen ∨ t = .dot ∨ ∃ name, t = .ident name

/-- What stands between the parts of a conditional. -/
def Token.IsConditionGap (t : Token) : Prop :=
  t = .newline ∨ t = .leftParen ∨ t = .rightParen ∨ t = .elseWord

/-- A symbol that is called is written as a name. -/
def IsNamed (ts : List Lexeme) (e : Expr) : Prop :=
  ∀ name s, e = .sym name s → ∃ t, ts = [t] ∧ Start.ofToken? t.token = some (.symbol name)

/-- These lexemes are a construct of the language.  It stands for the expression, and its parts are
these segments. -/
inductive Construct : List Lexeme → Expr → List Segment → Prop
  | literal {t : Lexeme} {literal : Literal}
      (ht : Start.ofToken? t.token = some (.literal literal)) :
      Construct [t] (.lit literal t.span) []
  | symbol {t : Lexeme} {name : String} (ht : Start.ofToken? t.token = some (.symbol name)) :
      Construct [t] (.sym name t.span) []
  | signSymbol {t : Lexeme} {name : String} (ht : Start.ofToken? t.token = some (.sign name)) :
      Construct [t] (.sym name t.span) []
  | operatorSymbol {t : Lexeme} {op : InfixOp} {name : String}
      (ht : InfixOp.ofToken? t.token = some op) (hname : op.form = .call name) :
      Construct [t] (.sym name t.span) []
  | sign {t : Lexeme} {name : String} {gap ts : List Lexeme} {e : Expr}
      (ht : Start.ofToken? t.token = some (.sign name)) (hgap : Breaks gap) :
      Construct (t :: (gap ++ ts)) (.call (.sym name t.span) [e] (t.span.join e.span))
        [([t], .sym name t.span), (ts, e)]
  | operator {t : Lexeme} {op : InfixOp} {name : String} {ls gap gap' rs : List Lexeme}
      {lhs rhs : Expr} (ht : InfixOp.ofToken? t.token = some op) (hname : op.form = .call name)
      (hgap : Breaks gap) (hgap' : Breaks gap') :
      Construct (ls ++ gap ++ t :: (gap' ++ rs))
        (.call (.sym name t.span) [lhs, rhs] (lhs.span.join rhs.span))
        [(ls, lhs), ([t], .sym name t.span), (rs, rhs)]
  | assign {t : Lexeme} {op : InfixOp} {scope : AssignScope} {ls gap gap' rs : List Lexeme}
      {lhs rhs : Expr} (ht : InfixOp.ofToken? t.token = some op) (hscope : op.form = .assign scope)
      (hgap : Breaks gap) (hgap' : Breaks gap') :
      Construct (ls ++ gap ++ t :: (gap' ++ rs)) (.assign lhs rhs scope (lhs.span.join rhs.span))
        [(ls, lhs), (rs, rhs)]
  | call {opening closing : Lexeme} {fs gap inside : List Lexeme} {func : Expr}
      {args : List Segment} (hnamed : IsNamed fs func) (hgap : Breaks gap)
      (hopening : opening.token = .leftParen) (hclosing : closing.token = .rightParen)
      (hinside : Between Token.IsItemGap inside args) :
      Construct (fs ++ gap ++ opening :: (inside ++ [closing]))
        (.call func (args.map Prod.snd) (func.span.join closing.span)) ((fs, func) :: args)
  | field {dollar key : Lexeme} {name : String} {ts gap gap' : List Lexeme} {e : Expr}
      (hgap : Breaks gap) (hdollar : dollar.token = .dollar)
      (hgap' : Breaks gap') (hkey : key.token = .ident name) :
      Construct (ts ++ gap ++ dollar :: (gap' ++ [key])) (.field e name (e.span.join key.span))
        [(ts, e)]
  | paren {opening closing : Lexeme} {inside : List Lexeme} {part : Segment}
      (hopening : Start.ofToken? opening.token = some .paren)
      (hclosing : closing.token = .rightParen)
      (hinside : Between Token.IsBreak inside [part]) :
      Construct (opening :: (inside ++ [closing]))
        (.paren part.2 (opening.span.join closing.span)) [part]
  | list {opening closing : Lexeme} {inside : List Lexeme} {items : List Segment}
      (hopening : Start.ofToken? opening.token = some .bracket)
      (hclosing : closing.token = .rightBracket)
      (hinside : Between Token.IsItemGap inside items) :
      Construct (opening :: (inside ++ [closing]))
        (.list (items.map Prod.snd) (opening.span.join closing.span)) items
  | record {opening closing : Lexeme} {inside : List Lexeme} {fields : List (String × Expr)}
      {values : List Segment} (hopening : Start.ofToken? opening.token = some .brace)
      (hclosing : closing.token = .rightBrace) (hinside : Between Token.IsFieldGap inside values)
      (hvalues : fields.map Prod.snd = values.map Prod.snd) :
      Construct (opening :: (inside ++ [closing]))
        (.record fields (opening.span.join closing.span)) values
  | block {opening closing : Lexeme} {inside : List Lexeme} {stmts : List Segment}
      (hopening : Start.ofToken? opening.token = some .brace)
      (hclosing : closing.token = .rightBrace)
      (hinside : Between Token.IsStatementGap inside stmts) :
      Construct (opening :: (inside ++ [closing]))
        (.block (stmts.map Prod.snd) (opening.span.join closing.span)) stmts
  | lambda {word : Lexeme} {params : List String} {gap ts : List Lexeme} {body : Expr}
      (hword : Start.ofToken? word.token = some .function)
      (hgap : ∀ u ∈ gap, u.token.IsParamGap) :
      Construct (word :: (gap ++ ts)) (.lambda params body (word.span.join body.span)) [(ts, body)]
  | ifThen {word : Lexeme} {gap gap' cs ys : List Lexeme} {cond yes : Expr}
      (hword : Start.ofToken? word.token = some .condition)
      (hgap : ∀ u ∈ gap, u.token.IsConditionGap) (hgap' : ∀ u ∈ gap', u.token.IsConditionGap) :
      Construct (word :: (gap ++ cs ++ (gap' ++ ys)))
        (.ifThen cond yes (word.span.join yes.span)) [(cs, cond), (ys, yes)]
  | ifElse {word : Lexeme} {gap gap' gap'' cs ys ns : List Lexeme} {cond yes no : Expr}
      (hword : Start.ofToken? word.token = some .condition)
      (hgap : ∀ u ∈ gap, u.token.IsConditionGap) (hgap' : ∀ u ∈ gap', u.token.IsConditionGap)
      (hgap'' : ∀ u ∈ gap'', u.token.IsConditionGap) :
      Construct (word :: (gap ++ cs ++ (gap' ++ ys ++ (gap'' ++ ns))))
        (.ifElse cond yes no (word.span.join no.span)) [(cs, cond), (ys, yes), (ns, no)]

/-- The expression is read from these lexemes, and its parts from theirs. -/
inductive Reads : List Lexeme → Expr → Prop
  | node {ts : List Lexeme} {e : Expr} {parts : List Segment} (h : Construct ts e parts)
      (hparts : ∀ part ∈ parts, Reads part.1 part.2) : Reads ts e

theorem breaks_nil : Breaks [] := by simp [Breaks]

theorem Breaks.append {gap gap' : List Lexeme} (h : Breaks gap) (h' : Breaks gap') :
    Breaks (gap ++ gap') := by
  intro t ht
  exact (List.mem_append.1 ht).elim (h t) (h' t)

namespace Parser

variable {free : Bool} {least fuel : Nat} {e lhs : Expr} {es : List Expr} {s : Span}
  {t : Lexeme} {ts us rest : List Lexeme} {name : String}

/-! ### Line breaks -/

theorem exists_breaks_of_skipNewlines (ts : List Lexeme) :
    ∃ gap, Breaks gap ∧ ts = gap ++ skipNewlines ts := by
  refine ⟨ts.takeWhile fun t => t.token == .newline, fun t ht => ?_, ?_⟩
  · exact beq_iff_eq.1 (List.all_eq_true.1 List.all_takeWhile t ht)
  · exact List.takeWhile_append_dropWhile.symm

theorem exists_gap_of_skipSeparators (ts : List Lexeme) :
    ∃ gap, (∀ t ∈ gap, t.token.IsStatementGap) ∧ ts = gap ++ skipSeparators ts := by
  refine ⟨ts.takeWhile fun t => t.token == .newline || t.token == .semicolon, fun t ht => ?_, ?_⟩
  · simpa [Token.IsStatementGap] using List.all_eq_true.1 List.all_takeWhile t ht
  · exact List.takeWhile_append_dropWhile.symm

theorem exists_breaks_of_ahead (free : Bool) (ts : List Lexeme) :
    ∃ gap, Breaks gap ∧ ts = gap ++ ahead free ts := by
  cases free
  · exact ⟨[], by simp [Breaks], rfl⟩
  · exact exists_breaks_of_skipNewlines ts

/-! ### What the parser takes -/

/-- An expression has been read from the start of the lexemes, and line breaks may have been passed
over after it. -/
def Begins (P : List Lexeme → Expr → Prop) (total : List Lexeme) (e : Expr)
    (rest : List Lexeme) : Prop :=
  ∃ ts gap, total = ts ++ gap ++ rest ∧ Breaks gap ∧ P ts e

/-- The same, with line breaks before the expression. -/
def Follows (P : List Lexeme → Expr → Prop) (total : List Lexeme) (e : Expr)
    (rest : List Lexeme) : Prop :=
  ∃ gap tail, total = gap ++ tail ∧ Breaks gap ∧ Begins P tail e rest

/-- An operand: if it is a symbol then a name. -/
def ReadsOperand (ts : List Lexeme) (e : Expr) : Prop := Reads ts e ∧ IsNamed ts e

/-- Some expressions have been read from lexemes. -/
def ReadsAll (other : Token → Prop) (ts : List Lexeme) (es : List Expr) : Prop :=
  ∃ parts : List Segment, es = parts.map Prod.snd ∧ Between other ts parts ∧
    ∀ part ∈ parts, Reads part.1 part.2

/-- What each part of the parser takes, at one amount of fuel. -/
structure Takes (fuel : Nat) : Prop where
  expr : ∀ {free least ts e rest}, expr fuel free least ts = .ok (e, rest) →
    Follows Reads ts e rest
  infixTail : ∀ {free least lhs ls gap ts e rest}, Reads ls lhs → Breaks gap →
    infixTail fuel free least lhs ts = .ok (e, rest) → Begins Reads (ls ++ gap ++ ts) e rest
  operand : ∀ {free ts e rest}, operand fuel free ts = .ok (e, rest) →
    Follows Reads ts e rest
  postfixTail : ∀ {free lhs ls gap ts e rest}, ReadsOperand ls lhs → Breaks gap →
    postfixTail fuel free lhs ts = .ok (e, rest) → Begins Reads (ls ++ gap ++ ts) e rest
  atom : ∀ {free ts e rest}, atom fuel free ts = .ok (e, rest) → Follows ReadsOperand ts e rest
  signed : ∀ {free op t ts e rest}, Start.ofToken? t.token = some (.sign op) →
    signed fuel free op t.span ts = .ok (e, rest) → Begins ReadsOperand (t :: ts) e rest
  lambda : ∀ {free t ts e rest}, Start.ofToken? t.token = some .function →
    lambda fuel free t.span ts = .ok (e, rest) → Begins ReadsOperand (t :: ts) e rest
  conditional : ∀ {free t ts e rest}, Start.ofToken? t.token = some .condition →
    conditional fuel free t.span ts = .ok (e, rest) → Begins ReadsOperand (t :: ts) e rest
  exprs : ∀ {close ts es s rest}, exprs fuel close ts = .ok (es, s, rest) →
    ∃ inside closing, ts = inside ++ closing :: rest ∧ closing.token = close ∧
      closing.span = s ∧ ReadsAll Token.IsItemGap inside es
  recordFields : ∀ {ts fields s rest}, recordFields fuel ts = .ok (fields, s, rest) →
    ∃ inside closing, ts = inside ++ closing :: rest ∧ closing.token = .rightBrace ∧
      closing.span = s ∧ ReadsAll Token.IsFieldGap inside (fields.map Prod.snd)
  statements : ∀ {close ts es rest}, statements fuel close ts = .ok (es, rest) →
    ∃ inside, ts = inside ++ rest ∧ ReadsAll Token.IsStatementGap inside es

/-! ### Parts of the lexemes -/

theorem Begins.follows {P : List Lexeme → Expr → Prop} (h : Begins P ts e rest) :
    Follows P ts e rest :=
  ⟨[], ts, rfl, breaks_nil, h⟩

/-- What follows more line breaks. -/
theorem Follows.breaks {P : List Lexeme → Expr → Prop} {gap : List Lexeme} (hgap : Breaks gap)
    (h : Follows P ts e rest) : Follows P (gap ++ ts) e rest := by
  obtain ⟨gap', tail, rfl, hgap', hbegins⟩ := h
  exact ⟨gap ++ gap', tail, by rw [List.append_assoc], hgap.append hgap', hbegins⟩

theorem Follows.of_skipNewlines {P : List Lexeme → Expr → Prop}
    (h : Follows P (skipNewlines ts) e rest) : Follows P ts e rest := by
  obtain ⟨gap, hgap, hts⟩ := exists_breaks_of_skipNewlines ts
  rw [hts]
  exact h.breaks hgap

theorem exists_breaks_of_next (h : next free ts = .ok (t, rest)) :
    ∃ gap, Breaks gap ∧ ts = gap ++ t :: rest := by
  rw [← ahead_of_next h]
  exact exists_breaks_of_ahead free ts

theorem exists_breaks_of_expect {token : Token} {what : String}
    (h : expect free token what ts = .ok (t, rest)) :
    ∃ gap, Breaks gap ∧ ts = gap ++ t :: rest ∧ t.token = token := by
  obtain ⟨hahead, ht⟩ := ahead_of_expect h
  obtain ⟨gap, hgap, hts⟩ := exists_breaks_of_ahead free ts
  exact ⟨gap, hgap, by rw [← hahead]; exact hts, ht⟩

theorem exists_breaks_of_expectName {what : String}
    (h : expectName free what ts = .ok (name, s, rest)) :
    ∃ gap t, Breaks gap ∧ ts = gap ++ t :: rest ∧ t.token = .ident name ∧ t.span = s := by
  obtain ⟨t, hahead, ht, hs⟩ := exists_ahead_of_expectName h
  obtain ⟨gap, hgap, hts⟩ := exists_breaks_of_ahead free ts
  exact ⟨gap, t, hgap, by rw [← hahead]; exact hts, ht, hs⟩

theorem isNamed_of_forall_ne (h : ∀ name s, e ≠ .sym name s) : IsNamed ts e :=
  fun name s heq => absurd heq (h name s)

theorem exists_params_cons {t : Lexeme} {tail rest : List Lexeme} (ht : t.token.IsParamGap)
    (h : ∃ params, (∀ u ∈ params, u.token.IsParamGap) ∧ tail = params ++ rest) :
    ∃ params, (∀ u ∈ params, u.token.IsParamGap) ∧ t :: tail = params ++ rest := by
  obtain ⟨params, hparams, rfl⟩ := h
  exact ⟨t :: params, List.forall_mem_cons.2 ⟨ht, hparams⟩, rfl⟩

mutual

theorem exists_params_of_paramNames {ts rest : List Lexeme} {names : List String}
    (h : paramNames ts = .ok (names, rest)) :
    ∃ params, (∀ t ∈ params, t.token.IsParamGap) ∧ ts = params ++ rest := by
  cases ts with
  | nil => rw [paramNames] at h; cases h
  | cons t tail =>
    rw [paramNames] at h
    split at h
    · next ht => exact exists_params_cons (.inl ht) (exists_params_of_paramNames h)
    · next ht =>
      cases h
      exact exists_params_cons (by simp [Token.IsParamGap, ht]) ⟨[], by simp, rfl⟩
    · next name ht =>
      obtain ⟨⟨others, after⟩, ha, h⟩ := Outcome.bind_eq_ok_iff.1 h
      cases h
      exact exists_params_cons (by simp [Token.IsParamGap, ht]) (exists_params_of_afterParam ha)
    · next ht =>
      obtain ⟨⟨others, after⟩, ha, h⟩ := Outcome.bind_eq_ok_iff.1 h
      cases h
      exact exists_params_cons (by simp [Token.IsParamGap, ht]) (exists_params_of_afterParam ha)
    · cases h

theorem exists_params_of_afterParam {ts rest : List Lexeme} {names : List String}
    (h : afterParam ts = .ok (names, rest)) :
    ∃ params, (∀ t ∈ params, t.token.IsParamGap) ∧ ts = params ++ rest := by
  cases ts with
  | nil => rw [afterParam] at h; cases h
  | cons t tail =>
    rw [afterParam] at h
    split at h
    · next ht => exact exists_params_cons (.inl ht) (exists_params_of_afterParam h)
    · next ht =>
      cases h
      exact exists_params_cons (by simp [Token.IsParamGap, ht]) ⟨[], by simp, rfl⟩
    · next ht =>
      exact exists_params_cons (by simp [Token.IsParamGap, ht]) (exists_params_of_paramNames h)
    · cases h

end

/-! ### Lists of expressions -/

section

variable {other : Token → Prop} {gap : List Lexeme} {parts : List Segment}

/-- What stands before the first part belongs to the gap there. -/
theorem between_append (gap : List Lexeme) (hgap : ∀ t ∈ gap, other t.token)
    (h : Between other ts parts) : Between other (gap ++ ts) parts := by
  have hmore : ∀ {more : List Lexeme}, (∀ t ∈ more, other t.token) →
      ∀ t ∈ gap ++ more, other t.token :=
    fun hmore t ht => (List.mem_append.1 ht).elim (hgap t) (hmore t)
  cases h with
  | nil hts => exact .nil (hmore hts)
  | @cons first rest segment _ hfirst h =>
    have hbetween := Between.cons segment (hmore hfirst) h
    simpa only [List.append_assoc] using hbetween

theorem between_append_right (gap : List Lexeme) (hgap : ∀ t ∈ gap, other t.token)
    (h : Between other ts parts) : Between other (ts ++ gap) parts := by
  induction h with
  | nil hts => exact .nil fun t ht => (List.mem_append.1 ht).elim (hts t) (hgap t)
  | @cons first rest segment _ hfirst _ ih =>
    have hbetween := Between.cons segment hfirst ih
    simpa only [List.append_assoc] using hbetween

theorem readsAll_nil (hgap : ∀ t ∈ gap, other t.token) : ReadsAll other gap [] :=
  ⟨[], rfl, .nil hgap, by simp⟩

theorem ReadsAll.cons (hgap : ∀ t ∈ gap, other t.token) (he : Reads us e)
    (h : ReadsAll other rest es) : ReadsAll other (gap ++ us ++ rest) (e :: es) := by
  obtain ⟨parts, rfl, hbetween, hparts⟩ := h
  have hcons := Between.cons (us, e) hgap hbetween
  exact ⟨(us, e) :: parts, rfl, hcons, List.forall_mem_cons.2 ⟨he, hparts⟩⟩

theorem ReadsAll.append (hgap : ∀ t ∈ gap, other t.token) (h : ReadsAll other ts es) :
    ReadsAll other (gap ++ ts) es := by
  obtain ⟨parts, hes, hbetween, hparts⟩ := h
  exact ⟨parts, hes, between_append gap hgap hbetween, hparts⟩

end

/-! ### The parts of the parser -/

/-- An infix operator makes a construct of its operands. -/
theorem reads_apply {op : InfixOp} {rhs : Expr} {ls rs gap gap' : List Lexeme} (hlhs : Reads ls lhs)
    (hrhs : Reads rs rhs) (hop : InfixOp.ofToken? t.token = some op) (hgap : Breaks gap)
    (hgap' : Breaks gap') : Reads (ls ++ gap ++ t :: (gap' ++ rs)) (op.apply t.span lhs rhs) := by
  unfold InfixOp.apply
  split
  · next name hname =>
    have hsym : Reads [t] (.sym name t.span) := .node (.operatorSymbol hop hname) (by simp)
    exact .node (.operator hop hname hgap hgap') (by simpa using ⟨hlhs, hsym, hrhs⟩)
  · next scope hscope =>
    exact .node (.assign hop hscope hgap hgap') (by simpa using ⟨hlhs, hrhs⟩)

/-- Arguments make a construct of the operand before them. -/
theorem ReadsOperand.call {opening closing : Lexeme} {fs gap inside : List Lexeme} {func : Expr}
    {parts : List Segment} (hfunc : ReadsOperand fs func) (hgap : Breaks gap)
    (hopening : opening.token = .leftParen) (hclosing : closing.token = .rightParen)
    (hinside : Between Token.IsItemGap inside parts)
    (hparts : ∀ part ∈ parts, Reads part.1 part.2) :
    ReadsOperand (fs ++ gap ++ opening :: (inside ++ [closing]))
      (.call func (parts.map Prod.snd) (func.span.join closing.span)) :=
  ⟨.node (.call hfunc.2 hgap hopening hclosing hinside) (List.forall_mem_cons.2 ⟨hfunc.1, hparts⟩),
    isNamed_of_forall_ne (by simp)⟩

/-- A field makes a construct of the operand before it. -/
theorem ReadsOperand.field {dollar key : Lexeme} {us gap gap' : List Lexeme}
    (htarget : ReadsOperand us e) (hgap : Breaks gap) (hdollar : dollar.token = .dollar)
    (hgap' : Breaks gap') (hkey : key.token = .ident name) :
    ReadsOperand (us ++ gap ++ dollar :: (gap' ++ [key])) (.field e name (e.span.join key.span)) :=
  ⟨.node (.field hgap hdollar hgap' hkey) (by simpa using htarget.1),
    isNamed_of_forall_ne (by simp)⟩

section

variable (ih : Takes fuel)

include ih

/-- An expression is an operand and the operators after it. -/
theorem takes_expr (h : expr (fuel + 1) free least ts = .ok (e, rest)) :
    Follows Reads ts e rest := by
  rw [expr] at h
  obtain ⟨⟨lhs, mid⟩, ho, hi⟩ := Outcome.bind_eq_ok_iff.1 h
  obtain ⟨gap, tail, rfl, hgap, ls, gap', rfl, hgap', hlhs⟩ := ih.operand ho
  exact ⟨gap, _, rfl, hgap, ih.infixTail hlhs hgap' hi⟩

/-- The left side grows with every operator. -/
theorem takes_infixTail {ls gap : List Lexeme} (hlhs : Reads ls lhs) (hgap : Breaks gap)
    (h : infixTail (fuel + 1) free least lhs ts = .ok (e, rest)) :
    Begins Reads (ls ++ gap ++ ts) e rest := by
  obtain ⟨gap', hgap', hts⟩ := exists_breaks_of_ahead free ts
  rw [infixTail] at h
  -- the operand stands alone if no operator follows that binds tightly enough
  have halone : ahead free ts = rest → Begins Reads (ls ++ gap ++ ts) lhs rest := by
    intro hrest
    rw [hrest] at hts
    refine ⟨ls, gap ++ gap', ?_, hgap.append hgap', hlhs⟩
    rw [hts]
    simp only [List.append_assoc]
  split at h
  · next hahead =>
    cases h
    exact halone hahead
  · next t tail hahead =>
    split at h
    · cases h
      exact halone hahead
    · next op hop =>
      split at h
      · cases h
        exact halone hahead
      · obtain ⟨⟨rhs, mid⟩, hr, hi⟩ := Outcome.bind_eq_ok_iff.1 h
        obtain ⟨gap₁, tail₁, htail, hgap₁, rs, gap₂, rfl, hgap₂, hrhs⟩ :=
          (ih.expr hr).of_skipNewlines
        have happly := reads_apply hlhs hrhs hop (hgap.append hgap') hgap₁
        have hbegins := ih.infixTail happly hgap₂ hi
        rw [hts, hahead, htail]
        simpa only [List.append_assoc, List.cons_append] using hbegins

/-- An operand is an atom with arguments and fields after it. -/
theorem takes_operand (h : operand (fuel + 1) free ts = .ok (e, rest)) :
    Follows Reads ts e rest := by
  rw [operand] at h
  obtain ⟨⟨lhs, mid⟩, ha, hp⟩ := Outcome.bind_eq_ok_iff.1 h
  obtain ⟨gap, tail, rfl, hgap, ls, gap', rfl, hgap', hlhs⟩ := ih.atom ha
  exact ⟨gap, _, rfl, hgap, ih.postfixTail hlhs hgap' hp⟩

/-- The operand so far grows with every call and every field. -/
theorem takes_postfixTail {ls gap : List Lexeme} (hlhs : ReadsOperand ls lhs) (hgap : Breaks gap)
    (h : postfixTail (fuel + 1) free lhs ts = .ok (e, rest)) :
    Begins Reads (ls ++ gap ++ ts) e rest := by
  cases ts with
  | nil =>
    rw [postfixTail] at h
    cases h
    exact ⟨ls, gap, rfl, hgap, hlhs.1⟩
  | cons t tail =>
    rw [postfixTail] at h
    split at h
    · next ht =>
      obtain ⟨⟨args, close, mid⟩, ha, hp⟩ := Outcome.bind_eq_ok_iff.1 h
      obtain ⟨inside, closing, rfl, hclosing, rfl, parts, rfl, hinside, hparts⟩ := ih.exprs ha
      -- the call has been read from the operand up to the closing parenthesis
      have hcall := hlhs.call hgap ht hclosing hinside hparts
      have hbegins := ih.postfixTail hcall breaks_nil hp
      simpa only [List.append_assoc, List.cons_append, List.nil_append] using hbegins
    · next ht =>
      obtain ⟨⟨name, s, mid⟩, hn, hp⟩ := Outcome.bind_eq_ok_iff.1 h
      obtain ⟨gap', key, hgap', rfl, hkey, rfl⟩ := exists_breaks_of_expectName hn
      have hbegins := ih.postfixTail (hlhs.field hgap ht hgap' hkey) breaks_nil hp
      simpa only [List.append_assoc, List.cons_append, List.nil_append] using hbegins
    · cases h
      exact ⟨ls, gap, rfl, hgap, hlhs.1⟩

theorem takes_signed {op : String} (ht : Start.ofToken? t.token = some (.sign op))
    (h : signed (fuel + 1) free op t.span ts = .ok (e, rest)) :
    Begins ReadsOperand (t :: ts) e rest := by
  rw [signed] at h
  obtain ⟨⟨operand, mid⟩, ho, hi⟩ := Outcome.bind_eq_ok_iff.1 h
  cases hi
  obtain ⟨gap, tail, rfl, hgap, us, gap', rfl, hgap', hread⟩ := ih.expr ho
  have hsym : Reads [t] (.sym op t.span) := .node (.signSymbol ht) (by simp)
  refine ⟨t :: (gap ++ us), gap', ?_, hgap', .node (.sign ht hgap) (by simpa using ⟨hsym, hread⟩),
    isNamed_of_forall_ne (by simp)⟩
  simp only [List.append_assoc, List.cons_append]

/-- The parameters belong to the lambda itself, since they are no expressions. -/
theorem takes_lambda (ht : Start.ofToken? t.token = some .function)
    (h : lambda (fuel + 1) free t.span ts = .ok (e, rest)) :
    Begins ReadsOperand (t :: ts) e rest := by
  rw [lambda] at h
  obtain ⟨⟨opening, mid⟩, hopen, h⟩ := Outcome.bind_eq_ok_iff.1 h
  obtain ⟨⟨params, afterParams⟩, hp, h⟩ := Outcome.bind_eq_ok_iff.1 h
  obtain ⟨⟨body, afterBody⟩, hb, h⟩ := Outcome.bind_eq_ok_iff.1 h
  cases h
  obtain ⟨gap, hgap, rfl, hopening⟩ := exists_breaks_of_expect hopen
  obtain ⟨inner, hinner, rfl⟩ := exists_params_of_paramNames hp
  obtain ⟨gap₁, tail, rfl, hgap₁, us, gap₂, rfl, hgap₂, hbody⟩ := (ih.expr hb).of_skipNewlines
  have hparams : ∀ u ∈ gap ++ opening :: (inner ++ gap₁), u.token.IsParamGap := by
    intro u hu
    simp only [List.mem_append, List.mem_cons] at hu
    rcases hu with hu | rfl | hu | hu
    · exact .inl (hgap u hu)
    · exact .inr (.inr (.inl hopening))
    · exact hinner u hu
    · exact .inl (hgap₁ u hu)
  refine ⟨t :: (gap ++ opening :: (inner ++ gap₁) ++ us), gap₂, ?_, hgap₂,
    .node (.lambda ht hparams) (by simpa using hbody), isNamed_of_forall_ne (by simp)⟩
  simp only [List.append_assoc, List.cons_append]

theorem takes_conditional (ht : Start.ofToken? t.token = some .condition)
    (h : conditional (fuel + 1) free t.span ts = .ok (e, rest)) :
    Begins ReadsOperand (t :: ts) e rest := by
  rw [conditional] at h
  obtain ⟨⟨opening, mid⟩, hopen, h₁⟩ := Outcome.bind_eq_ok_iff.1 h
  obtain ⟨⟨cond, afterCond⟩, hc, h₂⟩ := Outcome.bind_eq_ok_iff.1 h₁
  obtain ⟨⟨closing, afterClose⟩, hclose, h₃⟩ := Outcome.bind_eq_ok_iff.1 h₂
  obtain ⟨⟨yes, afterYes⟩, hy, h₄⟩ := Outcome.bind_eq_ok_iff.1 h₃
  clear h h₁ h₂ h₃
  obtain ⟨gap₀, hgap₀, rfl, hopening⟩ := exists_breaks_of_expect hopen
  obtain ⟨gap₁, tail₁, rfl, hgap₁, cs, gap₂, rfl, hgap₂, hcond⟩ := ih.expr hc
  obtain ⟨gap₃, hgap₃, rfl, hclosing⟩ := exists_breaks_of_expect hclose
  obtain ⟨gap₄, tail₂, rfl, hgap₄, ys, gap₅, rfl, hgap₅, hyes⟩ := (ih.expr hy).of_skipNewlines
  have hbefore : ∀ u ∈ gap₀ ++ opening :: gap₁, u.token.IsConditionGap := by
    intro u hu
    simp only [List.mem_append, List.mem_cons] at hu
    rcases hu with hu | rfl | hu
    · exact .inl (hgap₀ u hu)
    · exact .inr (.inl hopening)
    · exact .inl (hgap₁ u hu)
  have hbetween : ∀ u ∈ gap₂ ++ gap₃ ++ closing :: gap₄, u.token.IsConditionGap := by
    intro u hu
    simp only [List.mem_append, List.mem_cons] at hu
    rcases hu with (hu | hu) | rfl | hu
    · exact .inl (hgap₂ u hu)
    · exact .inl (hgap₃ u hu)
    · exact .inr (.inr (.inl hclosing))
    · exact .inl (hgap₄ u hu)
  -- without an alternative, the line breaks after the branch are left
  have hthen : Begins ReadsOperand (t :: (gap₀ ++ opening :: (gap₁ ++ (cs ++ gap₂ ++
      (gap₃ ++ closing :: (gap₄ ++ (ys ++ gap₅ ++ afterYes)))))))
      (.ifThen cond yes (t.span.join yes.span)) afterYes := by
    refine ⟨_, gap₅, ?_, hgap₅, .node (.ifThen ht hbefore hbetween)
      (by simpa using ⟨hcond, hyes⟩), isNamed_of_forall_ne (by simp)⟩
    simp only [List.append_assoc, List.cons_append]
  dsimp only at h₄
  split at h₄
  · next word tail heq =>
    split at h₄
    · next helse =>
      obtain ⟨⟨no, afterNo⟩, hn, h⟩ := Outcome.bind_eq_ok_iff.1 h₄
      cases h
      obtain ⟨gap₆, hgap₆, hafterYes⟩ := exists_breaks_of_skipNewlines afterYes
      obtain ⟨gap₇, tail₃, rfl, hgap₇, ns, gap₈, rfl, hgap₈, hno⟩ := (ih.expr hn).of_skipNewlines
      have hbetween' : ∀ u ∈ gap₅ ++ gap₆ ++ word :: gap₇, u.token.IsConditionGap := by
        intro u hu
        simp only [List.mem_append, List.mem_cons] at hu
        rcases hu with (hu | hu) | rfl | hu
        · exact .inl (hgap₅ u hu)
        · exact .inl (hgap₆ u hu)
        · exact .inr (.inr (.inr helse))
        · exact .inl (hgap₇ u hu)
      refine ⟨_, gap₈, ?_, hgap₈, .node (.ifElse ht hbefore hbetween hbetween')
        (by simpa using ⟨hcond, hyes, hno⟩), isNamed_of_forall_ne (by simp)⟩
      rw [hafterYes, heq]
      simp only [List.append_assoc, List.cons_append]
    · cases h₄
      exact hthen
  · cases h₄
    exact hthen

/-- The items of a list and the token that closes it. -/
theorem takes_exprs {close : Token} (h : exprs (fuel + 1) close ts = .ok (es, s, rest)) :
    ∃ inside closing, ts = inside ++ closing :: rest ∧ closing.token = close ∧
      closing.span = s ∧ ReadsAll Token.IsItemGap inside es := by
  obtain ⟨gap, hgap, hts⟩ := exists_breaks_of_skipNewlines ts
  rw [exprs] at h
  split at h
  · cases h
  · next t tail heq =>
    rw [heq] at hts
    split at h
    · next ht =>
      cases h
      exact ⟨gap, t, hts, ht, rfl, readsAll_nil fun u hu => .inl (hgap u hu)⟩
    · obtain ⟨⟨first, mid⟩, hf, h₁⟩ := Outcome.bind_eq_ok_iff.1 h
      obtain ⟨⟨sep, after⟩, hs, h₂⟩ := Outcome.bind_eq_ok_iff.1 h₁
      clear h h₁
      -- newlines before and after an item belong to the gaps between the items
      obtain ⟨gap₁, tail₁, htail, hgap₁, us, gap₂, rfl, hgap₂, hfirst⟩ := ih.expr hf
      obtain ⟨gap₃, hgap₃, rfl⟩ := exists_breaks_of_next hs
      have hbefore : ∀ u ∈ gap ++ gap₁, u.token.IsItemGap :=
        fun u hu => .inl (hgap.append hgap₁ u hu)
      have hafter : ∀ u ∈ gap₂ ++ gap₃, u.token.IsItemGap :=
        fun u hu => .inl (hgap₂.append hgap₃ u hu)
      dsimp only at h₂
      split at h₂
      · next hclose =>
        cases h₂
        refine ⟨gap ++ gap₁ ++ us ++ (gap₂ ++ gap₃), sep, ?_, hclose, rfl,
          .cons hbefore hfirst (readsAll_nil hafter)⟩
        rw [hts, htail]
        simp only [List.append_assoc]
      · split at h₂
        · next hcomma =>
          obtain ⟨⟨others, stop, last⟩, ho, h⟩ := Outcome.bind_eq_ok_iff.1 h₂
          cases h
          obtain ⟨inside, closing, rfl, hclosing, hspan, hothers⟩ := ih.exprs ho
          have hsep : ∀ u ∈ [sep], u.token.IsItemGap := by simpa using .inr hcomma
          have hothers := (hothers.append hsep).append hafter
          refine ⟨_, closing, ?_, hclosing, hspan, .cons hbefore hfirst hothers⟩
          rw [hts, htail]
          simp only [List.append_assoc, List.cons_append, List.nil_append]
        · cases h₂

/-- The fields of a record and the brace that closes it. -/
theorem takes_recordFields {fields : List (String × Expr)}
    (h : recordFields (fuel + 1) ts = .ok (fields, s, rest)) :
    ∃ inside closing, ts = inside ++ closing :: rest ∧ closing.token = .rightBrace ∧
      closing.span = s ∧ ReadsAll Token.IsFieldGap inside (fields.map Prod.snd) := by
  obtain ⟨gap, hgap, hts⟩ := exists_breaks_of_skipNewlines ts
  rw [recordFields] at h
  split at h
  · cases h
  · next t tail heq =>
    rw [heq] at hts
    split at h
    · next ht =>
      cases h
      exact ⟨gap, t, hts, ht, rfl, readsAll_nil fun u hu => .inl (hgap u hu)⟩
    · obtain ⟨⟨name, at_, afterName⟩, hn, h₁⟩ := Outcome.bind_eq_ok_iff.1 h
      obtain ⟨⟨colon, afterColon⟩, hc, h₂⟩ := Outcome.bind_eq_ok_iff.1 h₁
      obtain ⟨⟨first, mid⟩, hf, h₃⟩ := Outcome.bind_eq_ok_iff.1 h₂
      obtain ⟨⟨sep, after⟩, hs, h₄⟩ := Outcome.bind_eq_ok_iff.1 h₃
      clear h h₁ h₂ h₃
      obtain ⟨gap₁, key, hgap₁, htail, hkey, -⟩ := exists_breaks_of_expectName hn
      obtain ⟨gap₂, hgap₂, rfl, hcolon⟩ := exists_breaks_of_expect hc
      obtain ⟨gap₃, tail₁, rfl, hgap₃, us, gap₄, rfl, hgap₄, hfirst⟩ := ih.expr hf
      obtain ⟨gap₅, hgap₅, rfl⟩ := exists_breaks_of_next hs
      -- the name and the colon belong to the gap before the value
      have hbefore : ∀ u ∈ gap ++ gap₁ ++ key :: (gap₂ ++ colon :: gap₃), u.token.IsFieldGap := by
        intro u hu
        simp only [List.mem_append, List.mem_cons] at hu
        rcases hu with (hu | hu) | rfl | hu | rfl | hu
        · exact .inl (hgap u hu)
        · exact .inl (hgap₁ u hu)
        · exact .inr (.inr (.inr ⟨name, hkey⟩))
        · exact .inl (hgap₂ u hu)
        · exact .inr (.inr (.inl hcolon))
        · exact .inl (hgap₃ u hu)
      have hafter : ∀ u ∈ gap₄ ++ gap₅, u.token.IsFieldGap :=
        fun u hu => .inl (hgap₄.append hgap₅ u hu)
      dsimp only at h₄
      split at h₄
      · next hclose =>
        cases h₄
        refine ⟨_, sep, ?_, hclose, rfl, .cons hbefore hfirst (readsAll_nil hafter)⟩
        rw [hts, htail]
        simp only [List.append_assoc, List.cons_append]
      · split at h₄
        · next hcomma =>
          obtain ⟨⟨others, stop, last⟩, ho, h⟩ := Outcome.bind_eq_ok_iff.1 h₄
          cases h
          obtain ⟨inside, closing, rfl, hclosing, hspan, hothers⟩ := ih.recordFields ho
          have hsep : ∀ u ∈ [sep], u.token.IsFieldGap := by simpa using .inr (.inl hcomma)
          have hothers := (hothers.append hsep).append hafter
          refine ⟨_, closing, ?_, hclosing, hspan, .cons hbefore hfirst hothers⟩
          rw [hts, htail]
          simp only [List.append_assoc, List.cons_append, List.nil_append]
        · cases h₄

/-- Statements, as far as they go. -/
theorem takes_statements {close : Option Token}
    (h : statements (fuel + 1) close ts = .ok (es, rest)) :
    ∃ inside, ts = inside ++ rest ∧ ReadsAll Token.IsStatementGap inside es := by
  obtain ⟨gap, hgap, hts⟩ := exists_gap_of_skipSeparators ts
  rw [statements] at h
  split at h
  · next heq =>
    rw [heq] at hts
    cases h
    exact ⟨gap, hts, readsAll_nil hgap⟩
  · next t tail heq =>
    rw [heq] at hts
    split at h
    · cases h
      exact ⟨gap, hts, readsAll_nil hgap⟩
    · obtain ⟨⟨first, mid⟩, hf, h₁⟩ := Outcome.bind_eq_ok_iff.1 h
      clear h
      obtain ⟨gap₁, tail₁, htail, hgap₁, us, gap₂, rfl, hgap₂, hfirst⟩ := ih.expr hf
      have hbefore : ∀ u ∈ gap ++ gap₁, u.token.IsStatementGap :=
        fun u hu => (List.mem_append.1 hu).elim (hgap u) fun hu => .inl (hgap₁ u hu)
      have hafter : ∀ u ∈ gap₂, u.token.IsStatementGap := fun u hu => .inl (hgap₂ u hu)
      dsimp only at h₁
      split at h₁
      · cases h₁
        refine ⟨_, ?_, .cons hbefore hfirst (readsAll_nil hafter)⟩
        rw [hts, htail]
        simp only [List.append_assoc]
      · split at h₁
        · obtain ⟨⟨others, last⟩, ho, h⟩ := Outcome.bind_eq_ok_iff.1 h₁
          cases h
          obtain ⟨inside, hinside, hothers⟩ := ih.statements ho
          refine ⟨_, ?_, .cons hbefore hfirst (hothers.append hafter)⟩
          rw [hts, htail, hinside]
          simp only [List.append_assoc]
        · cases h₁

/-- An atom is a node that is read from its own tokens. -/
theorem takes_atom (h : atom (fuel + 1) free ts = .ok (e, rest)) :
    Follows ReadsOperand ts e rest := by
  rw [atom] at h
  obtain ⟨⟨t, tail⟩, hn, h₁⟩ := Outcome.bind_eq_ok_iff.1 h
  clear h
  obtain ⟨gap, hgap, rfl⟩ := exists_breaks_of_next hn
  refine Follows.breaks hgap (Begins.follows ?_)
  dsimp only at h₁
  split at h₁
  · cases h₁
  · next literal ht =>
    cases h₁
    exact ⟨[t], [], rfl, breaks_nil, .node (.literal ht) (by simp), isNamed_of_forall_ne (by simp)⟩
  · next name ht =>
    cases h₁
    refine ⟨[t], [], rfl, breaks_nil, .node (.symbol ht) (by simp), ?_⟩
    rintro _ _ ⟨⟩
    exact ⟨t, rfl, ht⟩
  · next op ht => exact ih.signed ht h₁
  · next ht =>
    obtain ⟨⟨inner, mid⟩, hi, h₂⟩ := Outcome.bind_eq_ok_iff.1 h₁
    obtain ⟨⟨closing, after⟩, hc, h₃⟩ := Outcome.bind_eq_ok_iff.1 h₂
    cases h₃
    clear h₁ h₂
    obtain ⟨gap₁, tail₁, rfl, hgap₁, us, gap₂, rfl, hgap₂, hinner⟩ := ih.expr hi
    obtain ⟨gap₃, hgap₃, rfl, hclosing⟩ := exists_breaks_of_expect hc
    -- parentheses have one part, and newlines around it
    have hinside : Between Token.IsBreak (gap₁ ++ us ++ (gap₂ ++ gap₃)) [(us, inner)] :=
      .cons (us, inner) hgap₁ (.nil (hgap₂.append hgap₃))
    refine ⟨_, [], ?_, breaks_nil, .node (.paren ht hclosing hinside) (by simpa using hinner),
      isNamed_of_forall_ne (by simp)⟩
    simp only [List.append_assoc, List.cons_append, List.nil_append]
  · next ht =>
    obtain ⟨⟨items, close, after⟩, hi, h₂⟩ := Outcome.bind_eq_ok_iff.1 h₁
    cases h₂
    clear h₁
    obtain ⟨inside, closing, rfl, hclosing, rfl, parts, rfl, hinside, hparts⟩ := ih.exprs hi
    refine ⟨_, [], ?_, breaks_nil, .node (.list ht hclosing hinside) hparts,
      isNamed_of_forall_ne (by simp)⟩
    simp only [List.append_assoc, List.cons_append, List.nil_append]
  · next ht =>
    split at h₁
    · obtain ⟨⟨fields, close, after⟩, hf, h₂⟩ := Outcome.bind_eq_ok_iff.1 h₁
      cases h₂
      clear h₁
      obtain ⟨inside, closing, rfl, hclosing, rfl, parts, hvalues, hinside, hparts⟩ :=
        ih.recordFields hf
      refine ⟨_, [], ?_, breaks_nil, .node (.record ht hclosing hinside hvalues) hparts,
        isNamed_of_forall_ne (by simp)⟩
      simp only [List.append_assoc, List.cons_append, List.nil_append]
    · obtain ⟨⟨stmts, mid⟩, hs, h₂⟩ := Outcome.bind_eq_ok_iff.1 h₁
      obtain ⟨⟨closing, after⟩, hc, h₃⟩ := Outcome.bind_eq_ok_iff.1 h₂
      cases h₃
      clear h₁ h₂
      obtain ⟨inside, rfl, parts, rfl, hinside, hparts⟩ := ih.statements hs
      obtain ⟨gap₁, hgap₁, rfl, hclosing⟩ := exists_breaks_of_expect hc
      have hall := between_append_right gap₁ (fun u hu => .inl (hgap₁ u hu)) hinside
      refine ⟨_, [], ?_, breaks_nil, .node (.block ht hclosing hall) hparts,
        isNamed_of_forall_ne (by simp)⟩
      simp only [List.append_assoc, List.cons_append, List.nil_append]
  · next ht => exact ih.lambda ht h₁
  · next ht => exact ih.conditional ht h₁

end

/-- What the parser takes, with any amount of fuel. -/
theorem takes (fuel : Nat) : Takes fuel := by
  induction fuel with
  | zero =>
    constructor
    case expr => intro _ _ _ _ _ h; rw [expr] at h; cases h
    case infixTail => intro _ _ _ _ _ _ _ _ _ _ h; rw [infixTail] at h; cases h
    case operand => intro _ _ _ _ h; rw [operand] at h; cases h
    case postfixTail => intro _ _ _ _ _ _ _ _ _ h; rw [postfixTail] at h; cases h
    case atom => intro _ _ _ _ h; rw [atom] at h; cases h
    case signed => intro _ _ _ _ _ _ _ h; rw [signed] at h; cases h
    case lambda => intro _ _ _ _ _ _ h; rw [lambda] at h; cases h
    case conditional => intro _ _ _ _ _ _ h; rw [conditional] at h; cases h
    case exprs => intro _ _ _ _ _ h; rw [exprs] at h; cases h
    case recordFields => intro _ _ _ _ h; rw [recordFields] at h; cases h
    case statements => intro _ _ _ _ h; rw [statements] at h; cases h
  | succ fuel ih =>
    exact {
      expr := takes_expr ih
      infixTail := takes_infixTail ih
      operand := takes_operand ih
      postfixTail := takes_postfixTail ih
      atom := takes_atom ih
      signed := takes_signed ih
      lambda := takes_lambda ih
      conditional := takes_conditional ih
      exprs := takes_exprs ih
      recordFields := takes_recordFields ih
      statements := takes_statements ih }

/-- A program is read from its lexemes. -/
theorem reads_of_program (h : program ts = .ok es) : ReadsAll Token.IsStatementGap ts es := by
  obtain ⟨inside, hts, hreads⟩ := (takes _).statements (statements_of_program h)
  rw [hts, List.append_nil]
  exact hreads

end Parser

end PipeLang
