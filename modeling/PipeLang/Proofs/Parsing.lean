import PipeLang.Parser.Program

/-!
# Rules of the parser

The functions of the parser call one another with a bound on their nesting, and four units for
every lexeme and a few more are enough.  `GivesExpr` and its like say what a part of the parser
answers whenever the bound is that large; so the rules below, one for each way in which a part can
succeed, do not speak of the bound any more.

The rules follow the grammar: expressions and the operators after an operand, operands and what
follows them, atoms, and the three kinds of lists.
-/

namespace PipeLang.Parser

variable {free : Bool} {least : Nat} {lhs e : Expr} {t u : Lexeme} {s : Span} {op : InfixOp}
  {ts rest mid after : List Lexeme} {es : List Expr} {r : Parsed (Expr × List Lexeme)}

/-- What the parser answers to the start of an expression. -/
abbrev GivesExpr (free : Bool) (least : Nat) (ts : List Lexeme)
    (r : Parsed (Expr × List Lexeme)) : Prop :=
  ∀ fuel, 4 * ts.length + 3 ≤ fuel → expr fuel free least ts = r

/-- What it answers after an operand, where an operator may follow. -/
abbrev GivesInfix (free : Bool) (least : Nat) (lhs : Expr) (ts : List Lexeme)
    (r : Parsed (Expr × List Lexeme)) : Prop :=
  ∀ fuel, 4 * ts.length + 1 ≤ fuel → infixTail fuel free least lhs ts = r

/-- What it answers to the start of an operand. -/
abbrev GivesOperand (free : Bool) (ts : List Lexeme) (r : Parsed (Expr × List Lexeme)) : Prop :=
  ∀ fuel, 4 * ts.length + 2 ≤ fuel → operand fuel free ts = r

/-- What it answers where arguments or a field may follow. -/
abbrev GivesPostfix (free : Bool) (lhs : Expr) (ts : List Lexeme)
    (r : Parsed (Expr × List Lexeme)) : Prop :=
  ∀ fuel, 4 * ts.length + 1 ≤ fuel → postfixTail fuel free lhs ts = r

/-- What it answers to the start of an atom. -/
abbrev GivesAtom (free : Bool) (ts : List Lexeme) (r : Parsed (Expr × List Lexeme)) : Prop :=
  ∀ fuel, 4 * ts.length + 1 ≤ fuel → atom fuel free ts = r

/-- What it answers to expressions between commas. -/
abbrev GivesExprs (close : Token) (ts : List Lexeme)
    (r : Parsed (List Expr × Span × List Lexeme)) : Prop :=
  ∀ fuel, 4 * ts.length + 4 ≤ fuel → exprs fuel close ts = r

/-- What it answers to the fields of a record. -/
abbrev GivesFields (ts : List Lexeme)
    (r : Parsed (List (String × Expr) × Span × List Lexeme)) : Prop :=
  ∀ fuel, 4 * ts.length + 4 ≤ fuel → recordFields fuel ts = r

/-- What it answers to statements. -/
abbrev GivesStatements (close : Option Token) (ts : List Lexeme)
    (r : Parsed (List Expr × List Lexeme)) : Prop :=
  ∀ fuel, 4 * ts.length + 4 ≤ fuel → statements fuel close ts = r

/-! ### Single lexemes -/

theorem skipNewlines_cons (h : t.token ≠ .newline) : skipNewlines (t :: rest) = t :: rest :=
  List.dropWhile_cons_of_neg (by simpa using h)

/-- What is no newline is next, between brackets as well as outside. -/
theorem ahead_cons (free : Bool) (h : t.token ≠ .newline) : ahead free (t :: rest) = t :: rest := by
  cases free
  · rfl
  · exact skipNewlines_cons h

theorem ahead_eq_self (free : Bool) (h : ∀ t ∈ ts.head?, t.token ≠ .newline) :
    ahead free ts = ts := by
  cases ts with
  | nil => cases free <;> rfl
  | cons t rest => exact ahead_cons free (h t rfl)

theorem skipSeparators_cons (h : t.token ≠ .newline) (h' : t.token ≠ .semicolon) :
    skipSeparators (t :: rest) = t :: rest :=
  List.dropWhile_cons_of_neg (by simp [h, h'])

/-- The next lexeme is the one ahead. -/
theorem next_of_ahead (h : ahead free ts = t :: rest) : next free ts = .ok (t, rest) := by
  rw [next, h]

/-- An expected lexeme is passed if it is ahead. -/
theorem expect_of_ahead {token : Token} (h : ahead free ts = t :: rest) (ht : t.token = token)
    (what : String) : expect free token what ts = .ok (t, rest) := by
  rw [expect, next_of_ahead h]
  exact if_pos ht

/-- A name that is expected is taken if it is the lexeme ahead. -/
theorem expectName_of_ahead {name : String} (h : ahead free ts = t :: rest)
    (ht : t.token = .ident name) (what : String) :
    expectName free what ts = .ok (name, t.span, rest) := by
  rw [expectName, next_of_ahead h]
  simp only [Outcome.ok_bind, ht]

theorem ahead_of_next (h : next free ts = .ok (t, rest)) : ahead free ts = t :: rest := by
  rw [next] at h
  split at h
  · cases h
  · next hahead =>
    cases h
    exact hahead

theorem ahead_of_expect {token : Token} {what : String}
    (h : expect free token what ts = .ok (t, rest)) :
    ahead free ts = t :: rest ∧ t.token = token := by
  obtain ⟨⟨u, others⟩, hnext, h⟩ := Outcome.bind_eq_ok_iff.1 h
  dsimp only at h
  split at h
  · next hu =>
    cases h
    exact ⟨ahead_of_next hnext, hu⟩
  · cases h

/-- A name that has been passed was ahead. -/
theorem exists_ahead_of_expectName {name what : String}
    (h : expectName free what ts = .ok (name, s, rest)) :
    ∃ t, ahead free ts = t :: rest ∧ t.token = .ident name ∧ t.span = s := by
  obtain ⟨⟨u, others⟩, hnext, h⟩ := Outcome.bind_eq_ok_iff.1 h
  dsimp only at h
  split at h
  · next hu =>
    cases h
    exact ⟨u, ahead_of_next hnext, hu, rfl⟩
  · cases h

/-- What is behind the lexeme ahead is shorter. -/
theorem length_lt_of_ahead (h : ahead free ts = t :: rest) : rest.length < ts.length := by
  have hle := length_ahead_le free ts
  rw [h, List.length_cons] at hle
  exact hle

/-- Whatever is enough is at least one unit. -/
theorem exists_succ_of_le {n more fuel : Nat} (h : 4 * n + (more + 1) ≤ fuel) :
    ∃ k, fuel = k + 1 ∧ 4 * n + more ≤ k :=
  ⟨fuel - 1, by omega, by omega⟩

/-! ### What is left is shorter -/

/-- An expression takes at least one lexeme. -/
theorem length_lt_of_givesExpr (h : GivesExpr free least ts (.ok (e, rest))) :
    rest.length < ts.length :=
  (progress _).expr (h _ (Nat.le_refl _))

theorem length_lt_of_givesOperand (h : GivesOperand free ts (.ok (e, rest))) :
    rest.length < ts.length :=
  (progress _).operand (h _ (Nat.le_refl _))

theorem length_lt_of_givesAtom (h : GivesAtom free ts (.ok (e, rest))) : rest.length < ts.length :=
  (progress _).atom (h _ (Nat.le_refl _))

theorem length_lt_of_givesExprs {close : Token} (h : GivesExprs close ts (.ok (es, s, rest))) :
    rest.length < ts.length :=
  (progress _).exprs (h _ (Nat.le_refl _))

/-! ### Operators -/

/-- An expression is an operand and the infix operators that follow it. -/
theorem givesExpr (ho : GivesOperand free ts (.ok (lhs, mid)))
    (hoperator : GivesInfix free least lhs mid r) : GivesExpr free least ts r := by
  intro fuel hfuel
  obtain ⟨k, rfl, hk⟩ := exists_succ_of_le hfuel
  have hlt := length_lt_of_givesOperand ho
  rw [expr, ho k hk, Outcome.ok_bind]
  exact hoperator k (by omega)

/-- No operator follows that binds tightly enough. -/
theorem givesInfix_stop (hahead : ahead free ts = rest)
    (h : ∀ t ∈ rest.head?, ∀ op, InfixOp.ofToken? t.token = some op → op.left < least) :
    GivesInfix free least lhs ts (.ok (lhs, rest)) := by
  intro fuel hfuel
  obtain ⟨k, rfl, -⟩ := exists_succ_of_le hfuel
  rw [infixTail, hahead]
  cases rest with
  | nil => rfl
  | cons t rest =>
    dsimp only
    split
    · rfl
    · next op hop => exact if_pos (h t rfl op hop)

/-- An operator that binds tightly enough takes an operand on its right, and the result may have
further operators. -/
theorem givesInfix_cons {rhs : Expr} (h : ahead free ts = t :: rest)
    (hop : InfixOp.ofToken? t.token = some op) (hleast : least ≤ op.left)
    (hright : GivesExpr free op.right (skipNewlines rest) (.ok (rhs, mid)))
    (hoperator : GivesInfix free least (op.apply t.span lhs rhs) mid r) :
    GivesInfix free least lhs ts r := by
  intro fuel hfuel
  obtain ⟨k, rfl, hk⟩ := exists_succ_of_le hfuel
  have hlt := length_lt_of_ahead h
  have hle := length_skipNewlines_le rest
  have hmid := length_lt_of_givesExpr hright
  rw [infixTail, h]
  simp only [hop, if_neg (Nat.not_lt.2 hleast)]
  rw [hright k (by omega), Outcome.ok_bind]
  exact hoperator k (by omega)

/-! ### Arguments and fields -/

/-- An operand is an atom and the calls and fields that follow it. -/
theorem givesOperand (ha : GivesAtom free ts (.ok (lhs, mid)))
    (happlied : GivesPostfix free lhs mid r) : GivesOperand free ts r := by
  intro fuel hfuel
  obtain ⟨k, rfl, hk⟩ := exists_succ_of_le hfuel
  have hlt := length_lt_of_givesAtom ha
  rw [operand, ha k hk, Outcome.ok_bind]
  exact happlied k (by omega)

/-- No call or field follows. -/
theorem givesPostfix_stop (h : ∀ t ∈ ts.head?, t.token ≠ .leftParen ∧ t.token ≠ .dollar) :
    GivesPostfix free lhs ts (.ok (lhs, ts)) := by
  intro fuel hfuel
  obtain ⟨k, rfl, -⟩ := exists_succ_of_le hfuel
  cases ts with
  | nil => rw [postfixTail]
  | cons t rest =>
    obtain ⟨hparen, hdollar⟩ := h t rfl
    rw [postfixTail]
    split
    · next ht => exact absurd ht hparen
    · next ht => exact absurd ht hdollar
    · rfl

/-- An opening parenthesis calls what is before it. -/
theorem givesPostfix_args {args : List Expr} (ht : t.token = .leftParen)
    (hargs : GivesExprs .rightParen rest (.ok (args, s, mid)))
    (happlied : GivesPostfix free (.call lhs args (lhs.span.join s)) mid r) :
    GivesPostfix free lhs (t :: rest) r := by
  intro fuel hfuel
  obtain ⟨k, rfl, hk⟩ := exists_succ_of_le hfuel
  have hlt := length_lt_of_givesExprs hargs
  rw [List.length_cons] at hk
  rw [postfixTail]
  simp only [ht]
  rw [hargs k (by omega), Outcome.ok_bind]
  exact happlied k (by omega)

/-- A dollar and a name take a field of what is before them. -/
theorem givesPostfix_field {name : String} (ht : t.token = .dollar)
    (hname : ahead free rest = u :: mid) (hu : u.token = .ident name)
    (happlied : GivesPostfix free (.field lhs name (lhs.span.join u.span)) mid r) :
    GivesPostfix free lhs (t :: rest) r := by
  intro fuel hfuel
  obtain ⟨k, rfl, hk⟩ := exists_succ_of_le hfuel
  have hlt := length_lt_of_ahead hname
  rw [List.length_cons] at hk
  rw [postfixTail]
  simp only [ht]
  rw [expectName_of_ahead hname hu, Outcome.ok_bind]
  exact happlied k (by omega)

/-! ### Atoms -/

theorem givesAtom_literal {literal : Literal} (h : ahead free ts = t :: rest)
    (ht : Start.ofToken? t.token = some (.literal literal)) :
    GivesAtom free ts (.ok (.lit literal t.span, rest)) := by
  intro fuel hfuel
  obtain ⟨k, rfl, -⟩ := exists_succ_of_le hfuel
  rw [atom, next_of_ahead h, Outcome.ok_bind]
  simp only [ht]

theorem givesAtom_symbol {name : String} (h : ahead free ts = t :: rest)
    (ht : Start.ofToken? t.token = some (.symbol name)) :
    GivesAtom free ts (.ok (.sym name t.span, rest)) := by
  intro fuel hfuel
  obtain ⟨k, rfl, -⟩ := exists_succ_of_le hfuel
  rw [atom, next_of_ahead h, Outcome.ok_bind]
  simp only [ht]

/-- A sign is a call with what follows as its argument, as tightly as signs bind. -/
theorem givesAtom_sign {sign : String} (h : ahead free ts = t :: rest)
    (ht : Start.ofToken? t.token = some (.sign sign))
    (he : GivesExpr free Power.sign rest (.ok (e, after))) :
    GivesAtom free ts (.ok (.call (.sym sign t.span) [e] (t.span.join e.span), after)) := by
  intro fuel hfuel
  have hlt := length_lt_of_ahead h
  obtain ⟨k, rfl⟩ : ∃ k, fuel = k + 2 := ⟨fuel - 2, by omega⟩
  rw [atom, next_of_ahead h, Outcome.ok_bind]
  simp only [ht]
  rw [signed, he k (by omega)]
  rfl

/-- Between parentheses newlines do not matter. -/
theorem givesAtom_paren (h : ahead free ts = t :: rest) (ht : t.token = .leftParen)
    (he : GivesExpr true 0 rest (.ok (e, mid))) (hclose : ahead true mid = u :: after)
    (hu : u.token = .rightParen) :
    GivesAtom free ts (.ok (.paren e (t.span.join u.span), after)) := by
  intro fuel hfuel
  obtain ⟨k, rfl, hk⟩ := exists_succ_of_le hfuel
  have hlt := length_lt_of_ahead h
  rw [atom, next_of_ahead h, Outcome.ok_bind]
  simp only [ht, Start.ofToken?]
  rw [he k (by omega), Outcome.ok_bind, expect_of_ahead hclose hu]
  rfl

theorem givesAtom_bracket (h : ahead free ts = t :: rest) (ht : t.token = .leftBracket)
    (hes : GivesExprs .rightBracket rest (.ok (es, s, after))) :
    GivesAtom free ts (.ok (.list es (t.span.join s), after)) := by
  intro fuel hfuel
  obtain ⟨k, rfl, hk⟩ := exists_succ_of_le hfuel
  have hlt := length_lt_of_ahead h
  rw [atom, next_of_ahead h, Outcome.ok_bind]
  simp only [ht, Start.ofToken?]
  rw [hes k (by omega)]
  rfl

/-- A brace begins a record if a name and a colon follow. -/
theorem givesAtom_record {fields : List (String × Expr)} (h : ahead free ts = t :: rest)
    (ht : t.token = .leftBrace) (hrecord : startsRecord rest = true)
    (hfields : GivesFields rest (.ok (fields, s, after))) :
    GivesAtom free ts (.ok (.record fields (t.span.join s), after)) := by
  intro fuel hfuel
  obtain ⟨k, rfl, hk⟩ := exists_succ_of_le hfuel
  have hlt := length_lt_of_ahead h
  rw [atom, next_of_ahead h, Outcome.ok_bind]
  simp only [ht, Start.ofToken?, hrecord, if_true]
  rw [hfields k (by omega)]
  rfl

/-- Any other brace begins a block. -/
theorem givesAtom_block (h : ahead free ts = t :: rest) (ht : t.token = .leftBrace)
    (hrecord : startsRecord rest = false)
    (hes : GivesStatements (some .rightBrace) rest (.ok (es, mid)))
    (hclose : ahead free mid = u :: after) (hu : u.token = .rightBrace) :
    GivesAtom free ts (.ok (.block es (t.span.join u.span), after)) := by
  intro fuel hfuel
  obtain ⟨k, rfl, hk⟩ := exists_succ_of_le hfuel
  have hlt := length_lt_of_ahead h
  rw [atom, next_of_ahead h, Outcome.ok_bind]
  simp only [ht, Start.ofToken?, hrecord, Bool.false_eq_true, if_false]
  rw [hes k (by omega), Outcome.ok_bind, expect_of_ahead hclose hu]
  rfl

/-- A function has names in parentheses and a body that extends as far as it can. -/
theorem givesAtom_lambda {params : List String} (h : ahead free ts = t :: rest)
    (ht : Start.ofToken? t.token = some .function) (hopen : ahead free rest = u :: mid)
    (hu : u.token = .leftParen) {body : List Lexeme} (hparams : paramNames mid = .ok (params, body))
    (he : GivesExpr free Power.assign (skipNewlines body) (.ok (e, after))) :
    GivesAtom free ts (.ok (.lambda params e (t.span.join e.span), after)) := by
  intro fuel hfuel
  have hlt := length_lt_of_ahead h
  have hmid := length_lt_of_ahead hopen
  have hbody := length_lt_of_paramNames hparams
  have hle := length_skipNewlines_le body
  obtain ⟨k, rfl⟩ : ∃ k, fuel = k + 2 := ⟨fuel - 2, by omega⟩
  rw [atom, next_of_ahead h, Outcome.ok_bind]
  simp only [ht]
  rw [lambda, expect_of_ahead hopen hu, Outcome.ok_bind]
  simp only
  rw [hparams, Outcome.ok_bind]
  simp only
  rw [he k (by omega)]
  rfl

section

variable {cond yes : Expr} {inner body : List Lexeme} {v : Lexeme} (h : ahead free ts = t :: rest)
  (ht : t.token = .ifWord) (hopen : ahead free rest = u :: inner) (hu : u.token = .leftParen)
  (hcond : GivesExpr true 0 inner (.ok (cond, mid))) (hclose : ahead true mid = v :: body)
  (hv : v.token = .rightParen)
  (hyes : GivesExpr free Power.assign (skipNewlines body) (.ok (yes, after)))

include h ht hopen hu hcond hclose hv hyes

/-- A conditional as far as its first branch. -/
theorem atom_conditional {fuel : Nat} (hfuel : 4 * ts.length + 1 ≤ fuel) :
    ∃ k, 4 * after.length + 3 ≤ k ∧ atom fuel free ts =
      match skipNewlines after with
      | w :: rest =>
        if w.token = .elseWord then do
          let (no, ts) ← expr k free Power.assign (skipNewlines rest)
          .ok (.ifElse cond yes no (t.span.join no.span), ts)
        else .ok (.ifThen cond yes (t.span.join yes.span), after)
      | [] => .ok (.ifThen cond yes (t.span.join yes.span), after) := by
  have hlt := length_lt_of_ahead h
  have hinner := length_lt_of_ahead hopen
  have hmid := length_lt_of_givesExpr hcond
  have hbody := length_lt_of_ahead hclose
  have hle := length_skipNewlines_le body
  have hafter := length_lt_of_givesExpr hyes
  -- two calls lead from the atom to the condition, and what each part leaves is shorter
  obtain ⟨k, rfl⟩ : ∃ k, fuel = k + 2 := ⟨fuel - 2, by omega⟩
  refine ⟨k, by omega, ?_⟩
  rw [atom, next_of_ahead h, Outcome.ok_bind]
  simp only [ht, Start.ofToken?]
  rw [conditional, expect_of_ahead hopen hu, Outcome.ok_bind]
  simp only
  rw [hcond k (by omega), Outcome.ok_bind]
  simp only
  rw [expect_of_ahead hclose hv, Outcome.ok_bind]
  simp only
  rw [hyes k (by omega)]
  exact Outcome.ok_bind _ _

/-- A conditional without an alternative. -/
theorem givesAtom_ifThen (hno : ∀ w ∈ (skipNewlines after).head?, w.token ≠ .elseWord) :
    GivesAtom free ts (.ok (.ifThen cond yes (t.span.join yes.span), after)) := by
  intro fuel hfuel
  obtain ⟨k, -, hatom⟩ := atom_conditional h ht hopen hu hcond hclose hv hyes hfuel
  refine hatom.trans ?_
  split
  · next w tail hw => exact if_neg (hno w (by rw [hw]; rfl))
  · rfl

/-- The alternative may begin after newlines. -/
theorem givesAtom_ifElse {no : Expr} {w : Lexeme} {tail last : List Lexeme}
    (helse : skipNewlines after = w :: tail) (hw : w.token = .elseWord)
    (hno : GivesExpr free Power.assign (skipNewlines tail) (.ok (no, last))) :
    GivesAtom free ts (.ok (.ifElse cond yes no (t.span.join no.span), last)) := by
  intro fuel hfuel
  obtain ⟨k, hk, hatom⟩ := atom_conditional h ht hopen hu hcond hclose hv hyes hfuel
  have hle := length_skipNewlines_le after
  have hle' := length_skipNewlines_le tail
  rw [helse, List.length_cons] at hle
  refine hatom.trans ?_
  simp only [helse, hw, if_true]
  rw [hno k (by omega)]
  rfl

end

/-! ### Lists -/

theorem givesExprs_nil {close : Token} (h : skipNewlines ts = t :: rest) (ht : t.token = close) :
    GivesExprs close ts (.ok ([], t.span, rest)) := by
  intro fuel hfuel
  obtain ⟨k, rfl, -⟩ := exists_succ_of_le hfuel
  rw [exprs, h]
  exact if_pos ht

section

variable {close : Token} (h : skipNewlines ts = t :: rest) (ht : t.token ≠ close)
  (he : GivesExpr true 0 (t :: rest) (.ok (e, mid))) (hsep : ahead true mid = u :: after)

include h ht he hsep

/-- Expressions between commas as far as the token after the first one. -/
theorem exprs_first {fuel : Nat} (hfuel : 4 * ts.length + 4 ≤ fuel) :
    ∃ k, 4 * after.length + 4 ≤ k ∧ exprs fuel close ts =
      if u.token = close then .ok ([e], u.span, after)
      else if u.token = .comma then do
        let (others, stop, ts) ← exprs k close after
        .ok (e :: others, stop, ts)
      else .error (.unexpected u) := by
  obtain ⟨k, rfl, hk⟩ := exists_succ_of_le hfuel
  have hle := length_skipNewlines_le ts
  have hmid := length_lt_of_givesExpr he
  have hafter := length_lt_of_ahead hsep
  rw [h] at hle
  refine ⟨k, by omega, ?_⟩
  rw [exprs, h]
  simp only [if_neg ht]
  rw [he k (by omega), Outcome.ok_bind]
  simp only
  rw [next_of_ahead hsep, Outcome.ok_bind]

/-- The last item of a list is followed by the closing bracket. -/
theorem givesExprs_singleton (hu : u.token = close) :
    GivesExprs close ts (.ok ([e], u.span, after)) := by
  intro fuel hfuel
  obtain ⟨k, -, hexprs⟩ := exprs_first h ht he hsep hfuel
  exact hexprs.trans (if_pos hu)

/-- Any other is followed by a comma. -/
theorem givesExprs_cons (hu : u.token = .comma) (hcomma : close ≠ .comma) {last : List Lexeme}
    (hes : GivesExprs close after (.ok (es, s, last))) :
    GivesExprs close ts (.ok (e :: es, s, last)) := by
  intro fuel hfuel
  obtain ⟨k, hk, hexprs⟩ := exprs_first h ht he hsep hfuel
  refine hexprs.trans ?_
  simp only [hu, if_neg hcomma.symm, if_true]
  rw [hes k hk]
  rfl

end

theorem givesFields_nil (h : skipNewlines ts = t :: rest) (ht : t.token = .rightBrace) :
    GivesFields ts (.ok ([], t.span, rest)) := by
  intro fuel hfuel
  obtain ⟨k, rfl, -⟩ := exists_succ_of_le hfuel
  rw [recordFields, h]
  exact if_pos ht

section

variable {name : String} {value : List Lexeme} {v : Lexeme} {fields : List (String × Expr)}
  (h : skipNewlines ts = t :: rest) (ht : t.token = .ident name)
  (hcolon : ahead true rest = u :: value) (hu : u.token = .colon)
  (he : GivesExpr true 0 value (.ok (e, mid))) (hsep : ahead true mid = v :: after)

include h ht hcolon hu he hsep

/-- A record as far as the token after its first field. -/
theorem recordFields_field {fuel : Nat} (hfuel : 4 * ts.length + 4 ≤ fuel) :
    ∃ k, 4 * after.length + 4 ≤ k ∧ recordFields fuel ts =
      if v.token = .rightBrace then .ok ([(name, e)], v.span, after)
      else if v.token = .comma then do
        let (others, stop, ts) ← recordFields k after
        .ok ((name, e) :: others, stop, ts)
      else .error (.unexpected v) := by
  obtain ⟨k, rfl, hk⟩ := exists_succ_of_le hfuel
  have hle := length_skipNewlines_le ts
  have hvalue := length_lt_of_ahead hcolon
  have hmid := length_lt_of_givesExpr he
  have hafter := length_lt_of_ahead hsep
  rw [h, List.length_cons] at hle
  -- the name, the colon, the value and the separator are passed one after the other
  have hhead : ahead true (t :: rest) = t :: rest := by
    simp [ahead, skipNewlines, ht]
  have hbrace : t.token ≠ .rightBrace := by simp [ht]
  refine ⟨k, by omega, ?_⟩
  rw [recordFields, h]
  simp only [if_neg hbrace]
  rw [expectName_of_ahead hhead ht, Outcome.ok_bind]
  simp only
  rw [expect_of_ahead hcolon hu, Outcome.ok_bind]
  simp only
  rw [he k (by omega), Outcome.ok_bind]
  simp only
  rw [next_of_ahead hsep, Outcome.ok_bind]

theorem givesFields_singleton (hv : v.token = .rightBrace) :
    GivesFields ts (.ok ([(name, e)], v.span, after)) := by
  intro fuel hfuel
  obtain ⟨k, -, hfields⟩ := recordFields_field h ht hcolon hu he hsep hfuel
  exact hfields.trans (if_pos hv)

theorem givesFields_cons (hv : v.token = .comma) {last : List Lexeme}
    (hfields : GivesFields after (.ok (fields, s, last))) :
    GivesFields ts (.ok ((name, e) :: fields, s, last)) := by
  intro fuel hfuel
  obtain ⟨k, hk, hrecord⟩ := recordFields_field h ht hcolon hu he hsep hfuel
  refine hrecord.trans ?_
  simp only [hv, reduceCtorEq, if_false, if_true]
  rw [hfields k hk]
  rfl

end

/-- The statements end where the block does. -/
theorem givesStatements_nil {close : Option Token} (h : skipSeparators ts = t :: rest)
    (ht : some t.token = close) : GivesStatements close ts (.ok ([], t :: rest)) := by
  intro fuel hfuel
  obtain ⟨k, rfl, -⟩ := exists_succ_of_le hfuel
  rw [statements, h]
  exact if_pos ht

/-- A last statement may end with the source. -/
theorem givesStatements_last {close : Option Token} (h : skipSeparators ts = t :: rest)
    (ht : some t.token ≠ close) (he : GivesExpr false 0 (t :: rest) (.ok (e, []))) :
    GivesStatements close ts (.ok ([e], [])) := by
  intro fuel hfuel
  obtain ⟨k, rfl, hk⟩ := exists_succ_of_le hfuel
  have hle := length_skipSeparators_le ts
  rw [h] at hle
  rw [statements, h]
  simp only [if_neg ht]
  rw [he k (by omega)]
  rfl

/-- A statement ends at a separator or at the end of the block. -/
theorem givesStatements_cons {close : Option Token} (h : skipSeparators ts = t :: rest)
    (ht : some t.token ≠ close) (he : GivesExpr false 0 (t :: rest) (.ok (e, u :: after)))
    (hu : endsStatement close u = true) (hes : GivesStatements close (u :: after) (.ok (es, mid))) :
    GivesStatements close ts (.ok (e :: es, mid)) := by
  intro fuel hfuel
  obtain ⟨k, rfl, hk⟩ := exists_succ_of_le hfuel
  have hle := length_skipSeparators_le ts
  have hlt := length_lt_of_givesExpr he
  rw [h] at hle
  rw [statements, h]
  simp only [if_neg ht]
  rw [he k (by omega), Outcome.ok_bind]
  simp only [hu, if_true]
  rw [hes k (by omega)]
  rfl

/-- Statements may start after other separators. -/
theorem givesStatements_of_skipSeparators {close : Option Token}
    {r : Parsed (List Expr × List Lexeme)} (hskip : skipSeparators ts = skipSeparators rest)
    (hle : rest.length ≤ ts.length) (h : GivesStatements close rest r) :
    GivesStatements close ts r := by
  intro fuel hfuel
  have hrest := h fuel (by omega)
  obtain ⟨k, rfl, -⟩ := exists_succ_of_le hfuel
  rw [statements] at hrest ⊢
  rwa [hskip]

/-- A separator before a statement changes nothing. -/
theorem givesStatements_separator {close : Option Token} {r : Parsed (List Expr × List Lexeme)}
    (ht : t.token = .newline ∨ t.token = .semicolon) (h : GivesStatements close rest r) :
    GivesStatements close (t :: rest) r := by
  have hskip : skipSeparators (t :: rest) = skipSeparators rest := by
    refine List.dropWhile_cons_of_pos ?_
    rcases ht with ht | ht <;> simp [ht]
  exact givesStatements_of_skipSeparators hskip (Nat.le_succ _) h

/-- A program of these lexemes. -/
theorem program_of_givesStatements (h : GivesStatements none ts (.ok (es, rest))) :
    program ts = .ok es := by
  have hstatements : statements (4 * ts.length + 4) none ts = .ok (es, rest) := h _ (Nat.le_refl _)
  simp only [program, hstatements]
  rfl

/-- A program is a list of statements that is read to the end of the source. -/
theorem exists_statements_of_program (h : program ts = .ok es) :
    ∃ rest, statements (4 * ts.length + 4) none ts = .ok (es, rest) := by
  cases hstatements : statements (4 * ts.length + 4) none ts with
  | ok a =>
    simp only [program, hstatements] at h
    cases h
    exact ⟨a.2, rfl⟩
  | error e =>
    simp only [program, hstatements] at h
    cases h
  | outOfFuel => exact absurd hstatements (statements_ne_outOfFuel (Nat.le_refl _))

/-- A program of one statement. -/
theorem program_of_givesExpr (ht : t.token ≠ .newline) (ht' : t.token ≠ .semicolon)
    (h : GivesExpr false 0 (t :: ts) (.ok (e, []))) : program (t :: ts) = .ok [e] :=
  program_of_givesStatements
    (givesStatements_last (skipSeparators_cons ht ht') (Option.some_ne_none _) h)

/-- A source text of one statement. -/
theorem parseExpr_of_program {source : String} (hlex : lexCode? source = .ok ts)
    (h : program ts = .ok [e]) : parseExpr source = .ok e := by
  have hparse : parseProgram source = .ok [e] := by
    rw [parseProgram, hlex]
    exact h
  rw [parseExpr, hparse]
  rfl

end PipeLang.Parser
