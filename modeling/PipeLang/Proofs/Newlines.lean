import PipeLang.Proofs.Rereading

/-!
# Line breaks between brackets

Line breaks carry no meaning between parentheses and between brackets: one that is put there, before
a token that is no line break and could not follow an operand as arguments or a field, changes
nothing about the tree but its spans (`program_insert_newline`).

`Spaced` relates the two lists of lexemes, from a place on where certain brackets are open.  Seen
without leading line breaks the lists begin alike (`Spaced.sameHead_ahead`), and where the innermost
bracket is a brace, or none is open, they begin alike as they stand (`Spaced.sameHead`).  The parser
looks at what is left through `ahead`, except in three places: arguments and fields, before which no
line break was put; lists of parameters, which skip line breaks themselves
(`Spaced.matches_params`); and statements, which no bracket but a brace is around.  So each part of
the parser that starts on two such lists ends on two of them (`insensitive`).
-/

namespace PipeLang

/-! ### Open brackets -/

/-- The brackets that are open after a token, innermost first, if these were open before it. -/
def Token.openAfter (t : Token) (brackets : List Token) : List Token :=
  match t with
  | .leftParen | .leftBracket | .leftBrace => t :: brackets
  | .rightParen | .rightBracket | .rightBrace => brackets.tail
  | _ => brackets

/-- The brackets that are open after some tokens, innermost first. -/
def openBrackets (ts : List Token) : List Token :=
  ts.foldl (fun brackets t => t.openAfter brackets) []

/-- The innermost open bracket is a parenthesis or a bracket, no brace. -/
def InnermostFree (brackets : List Token) : Prop :=
  brackets.head? = some .leftParen ∨ brackets.head? = some .leftBracket

theorem not_innermostFree_nil : ¬InnermostFree [] := by simp [InnermostFree]

theorem not_innermostFree_leftBrace (brackets : List Token) :
    ¬InnermostFree (.leftBrace :: brackets) := by
  simp [InnermostFree]

/-- What an operand that starts in this way opens. -/
def Start.opened : Start → List Token
  | paren => [.leftParen]
  | bracket => [.leftBracket]
  | brace => [.leftBrace]
  | _ => []

namespace Parser

/-- The second list is the first one with line breaks put in where the innermost open bracket is a
parenthesis or a bracket, none of them before a line break, a parenthesis or a dollar sign.  The
brackets are those that are open before the lists. -/
inductive Spaced : List Token → List Lexeme → List Lexeme → Prop
  | nil (brackets : List Token) : Spaced brackets [] []
  | cons {brackets : List Token} {t u : Lexeme} {ts us : List Lexeme} (h : t.token = u.token)
      (hrest : Spaced (t.token.openAfter brackets) ts us) : Spaced brackets (t :: ts) (u :: us)
  | insert {brackets : List Token} {t u : Lexeme} {ts us : List Lexeme}
      (hfree : InnermostFree brackets) (hu : u.token = .newline)
      (ht : t.token ≠ .newline ∧ t.token ≠ .leftParen ∧ t.token ≠ .dollar)
      (h : Spaced brackets (t :: ts) us) : Spaced brackets (t :: ts) (u :: us)

/-- Both lists begin with the same token, or both are empty, and the rest is spaced. -/
inductive SameHead (brackets : List Token) : List Lexeme → List Lexeme → Prop
  | nil : SameHead brackets [] []
  | cons {t u : Lexeme} {ts us : List Lexeme} (h : t.token = u.token)
      (hrest : Spaced (t.token.openAfter brackets) ts us) : SameHead brackets (t :: ts) (u :: us)

variable {brackets : List Token} {b : Token} {free : Bool} {t u : Lexeme} {ts us : List Lexeme}

/-- Sources with the same head differ in newlines further on. -/
theorem SameHead.spaced (h : SameHead brackets ts us) : Spaced brackets ts us := by
  cases h with
  | nil => exact .nil _
  | cons h hrest => exact .cons h hrest

/-- Where newlines have a meaning, both have the same head. -/
theorem Spaced.sameHead (h : Spaced brackets ts us) (hb : ¬InnermostFree brackets) :
    SameHead brackets ts us := by
  cases h with
  | nil => exact .nil
  | cons h hrest => exact .cons h hrest
  | insert hfree => exact absurd hfree hb

/-- A newline in front is skipped. -/
theorem skipNewlines_newline (h : t.token = .newline) : skipNewlines (t :: ts) = skipNewlines ts :=
  List.dropWhile_cons_of_pos (by simp [h])

/-- Where newlines are skipped, it does not matter how many there are. -/
theorem Spaced.sameHead_skipNewlines (h : Spaced brackets ts us) :
    SameHead brackets (skipNewlines ts) (skipNewlines us) := by
  induction h with
  | nil => exact .nil
  | @cons brackets t u ts us h hrest ih =>
    by_cases ht : t.token = .newline
    · rw [skipNewlines_newline ht, skipNewlines_newline (h ▸ ht)]
      rw [ht] at ih
      exact ih
    · rw [skipNewlines_cons ht, skipNewlines_cons (h ▸ ht)]
      exact .cons h hrest
  | insert hfree hu ht h ih =>
    rw [skipNewlines_newline hu]
    exact ih

/-- The lists begin alike for a part of the parser that passes over line breaks wherever the
innermost bracket is a parenthesis or a bracket. -/
theorem Spaced.sameHead_ahead (h : Spaced brackets ts us) (hfree : InnermostFree brackets → free) :
    SameHead brackets (ahead free ts) (ahead free us) := by
  cases free with
  | true => exact h.sameHead_skipNewlines
  | false => exact h.sameHead fun hb => by cases hfree hb

/-- Between statements it does not matter how many newlines there are. -/
theorem Spaced.sameHead_skipSeparators (h : Spaced brackets ts us)
    (hb : ¬InnermostFree brackets) :
    SameHead brackets (skipSeparators ts) (skipSeparators us) := by
  induction h with
  | nil => exact .nil
  | @cons brackets t u ts us h hrest ih =>
    unfold skipSeparators
    rw [List.dropWhile_cons, List.dropWhile_cons, ← h]
    split
    · next hskip =>
      have hsame : t.token.openAfter brackets = brackets := by
        rcases Bool.or_eq_true_iff.1 hskip with ht | ht <;> rw [eq_of_beq ht] <;> rfl
      rw [hsame] at ih
      exact ih hb
    · exact .cons h hrest
  | insert hfree => exact absurd hfree hb

/-- A record starts with a name. -/
theorem startsRecord_of_no_name
    (h : ∀ t ∈ (skipNewlines ts).head?, ∀ name, t.token ≠ .ident name) :
    startsRecord ts = false := by
  unfold startsRecord
  split
  · next t u rest heq =>
    split
    · next hname _ => exact absurd hname (h t (by rw [heq]; rfl) _)
    · rfl
  · rfl

/-- What follows a brace starts a record in both lists or in neither. -/
theorem Spaced.startsRecord_eq (h : Spaced (.leftBrace :: brackets) ts us) :
    startsRecord ts = startsRecord us := by
  have hhead := h.sameHead_skipNewlines
  by_cases hname : ∃ t ∈ (skipNewlines ts).head?, ∃ name, t.token = .ident name
  · obtain ⟨v, hv, name, hvname⟩ := hname
    unfold startsRecord
    generalize skipNewlines ts = xs at hhead hv
    generalize skipNewlines us = ys at hhead
    cases hhead with
    | nil => rfl
    | @cons t u xs ys htoken hrest =>
      cases hv
      -- A name opens and closes nothing, so that the brace is still the innermost bracket.
      rw [hvname] at hrest
      cases hrest.sameHead (not_innermostFree_leftBrace brackets) with
      | nil => rfl
      | cons hnext => simp only [← htoken, ← hnext]
  · rw [startsRecord_of_no_name fun t ht name h => hname ⟨t, ht, name, h⟩,
      startsRecord_of_no_name fun u hu name h => ?_]
    generalize skipNewlines ts = xs at hhead hname
    generalize skipNewlines us = ys at hhead hu
    cases hhead with
    | nil => cases hu
    | cons htoken hrest =>
      cases hu
      exact hname ⟨_, rfl, name, htoken.trans h⟩

/-! ### Two answers -/

/-- Both parts of the parser answer, and the answers are related, or both reject what they read.
Nothing is said if the first one had too little fuel. -/
inductive Matches {α β : Type} (good : α → β → Prop) : Parsed α → Parsed β → Prop
  | ok {a : α} {b : β} (h : good a b) : Matches good (.ok a) (.ok b)
  | error (e e' : ParseError) : Matches good (.error e) (.error e')
  | outOfFuel (y : Parsed β) : Matches good .outOfFuel y

/-- Answers that match, or are the same error, go on to match. -/
theorem Matches.bind {α β γ δ : Type} {good : α → β → Prop} {after : γ → δ → Prop}
    {x : Parsed α} {y : Parsed β} {f : α → Parsed γ} {g : β → Parsed δ} (h : Matches good x y)
    (hf : ∀ a b, good a b → Matches after (f a) (g b)) :
    Matches after (x >>= f) (y >>= g) := by
  cases h with
  | ok h => exact hf _ _ h
  | error e e' => exact .error e e'
  | outOfFuel y => exact .outOfFuel _

/-- The same token, and the rest is spaced. -/
def SameLexeme (brackets : List Token) (a b : Lexeme × List Lexeme) : Prop :=
  a.1.token = b.1.token ∧ Spaced (a.1.token.openAfter brackets) a.2 b.2

/-- The same tree up to spans, and the rest is spaced. -/
def SameExpr (brackets : List Token) (a b : Expr × List Lexeme) : Prop :=
  a.1.unspanned = b.1.unspanned ∧ Spaced brackets a.2 b.2

/-- The same trees up to spans, and the rest is spaced. -/
def SameStatements (brackets : List Token) (a b : List Expr × List Lexeme) : Prop :=
  Expr.unspannedAll a.1 = Expr.unspannedAll b.1 ∧ Spaced brackets a.2 b.2

/-- The same items up to spans, and the rest is spaced. -/
def SameExprs (brackets : List Token) (a b : List Expr × Span × List Lexeme) : Prop :=
  Expr.unspannedAll a.1 = Expr.unspannedAll b.1 ∧ Spaced brackets a.2.2 b.2.2

/-- The same fields up to spans, and the rest is spaced. -/
def SameFields (brackets : List Token) (a b : List (String × Expr) × Span × List Lexeme) : Prop :=
  Expr.unspannedFields a.1 = Expr.unspannedFields b.1 ∧ Spaced brackets a.2.2 b.2.2

/-- The same names, and the rest is spaced. -/
def SameNames (brackets : List Token) (a b : List String × List Lexeme) : Prop :=
  a.1 = b.1 ∧ Spaced brackets a.2 b.2

/-! ### Single lexemes and parameters -/

/-- The next lexeme is the same, if newlines are skipped where they may differ. -/
theorem Spaced.matches_next (h : Spaced brackets ts us) (hfree : InnermostFree brackets → free) :
    Matches (SameLexeme brackets) (next free ts) (next free us) := by
  have hhead := h.sameHead_ahead hfree
  unfold next
  generalize ahead free ts = xs at hhead
  generalize ahead free us = ys at hhead
  cases hhead with
  | nil => exact .error _ _
  | cons h hrest => exact .ok ⟨h, hrest⟩

/-- A lexeme that is expected is there in both sources, or in neither. -/
theorem Spaced.matches_expect (h : Spaced brackets ts us)
    (hfree : InnermostFree brackets → free) (token : Token) (what : String) :
    Matches (fun a b => Spaced (token.openAfter brackets) a.2 b.2) (expect free token what ts)
      (expect free token what us) := by
  refine (h.matches_next hfree).bind ?_
  rintro ⟨t, rest⟩ ⟨u, rest'⟩ ⟨htoken, hrest⟩
  dsimp only at htoken hrest ⊢
  rw [← htoken]
  split
  · next ht => exact .ok (ht ▸ hrest)
  · exact .error _ _

/-- A name that is expected is the same in both sources, or there in neither. -/
theorem Spaced.matches_expectName (h : Spaced brackets ts us)
    (hfree : InnermostFree brackets → free) (what : String) :
    Matches (fun a b => a.1 = b.1 ∧ Spaced brackets a.2.2 b.2.2) (expectName free what ts)
      (expectName free what us) := by
  refine (h.matches_next hfree).bind ?_
  rintro ⟨t, rest⟩ ⟨u, rest'⟩ ⟨htoken, hrest⟩
  dsimp only at htoken hrest ⊢
  rw [← htoken]
  split
  · next ht => exact .ok ⟨rfl, by rwa [ht] at hrest⟩
  · exact .error _ _

/-- Parameter lists read the same names; they skip line breaks whatever is open around them. -/
theorem Spaced.matches_params (h : Spaced (b :: brackets) ts us) :
    Matches (SameNames brackets) (paramNames ts) (paramNames us) ∧
      Matches (SameNames brackets) (afterParam ts) (afterParam us) := by
  generalize hopen : b :: brackets = opened at h
  induction h with
  | nil => exact ⟨.error _ _, .error _ _⟩
  | @cons opened t u ts us htoken hrest ih =>
    subst hopen
    rw [paramNames, paramNames, afterParam, afterParam, ← htoken]
    -- a name is taken, and what follows it has other parameters
    have hnames : ∀ name : String, b :: brackets = t.token.openAfter (b :: brackets) →
        Matches (SameNames brackets)
          (afterParam ts >>= fun x => Outcome.ok (name :: x.1, x.2))
          (afterParam us >>= fun x => Outcome.ok (name :: x.1, x.2)) := fun name hsame =>
      (ih hsame).2.bind fun x y hxy => .ok ⟨congrArg (name :: ·) hxy.1, hxy.2⟩
    constructor
    · split
      · next ht => exact (ih (by rw [ht]; rfl)).1
      · next ht => exact .ok ⟨rfl, by rwa [ht] at hrest⟩
      · next ht => exact hnames _ (by rw [ht]; rfl)
      · next ht => exact hnames _ (by rw [ht]; rfl)
      · exact .error _ _
    · split
      · next ht => exact (ih (by rw [ht]; rfl)).2
      · next ht => exact .ok ⟨rfl, by rwa [ht] at hrest⟩
      · next ht => exact (ih (by rw [ht]; rfl)).1
      · exact .error _ _
  | @insert opened t u ts us hfree hu ht h ih =>
    rw [paramNames.eq_def (u :: us), afterParam.eq_def (u :: us)]
    simp only [hu]
    exact ih hopen

/-! ### Every part of the parser -/

/-- What each part of the parser makes of two spaced lists, with these two amounts of fuel. -/
structure Insensitive (fuel more : Nat) : Prop where
  expr : ∀ {free least brackets ts us}, (InnermostFree brackets → free = true) →
    Spaced brackets ts us →
    Matches (SameExpr brackets) (expr fuel free least ts) (expr more free least us)
  infixTail : ∀ {free least lhs lhs' brackets ts us}, (InnermostFree brackets → free = true) →
    lhs.unspanned = lhs'.unspanned → Spaced brackets ts us →
    Matches (SameExpr brackets) (infixTail fuel free least lhs ts)
      (infixTail more free least lhs' us)
  operand : ∀ {free brackets ts us}, (InnermostFree brackets → free = true) →
    Spaced brackets ts us →
    Matches (SameExpr brackets) (operand fuel free ts) (operand more free us)
  postfixTail : ∀ {free lhs lhs' brackets ts us}, (InnermostFree brackets → free = true) →
    lhs.unspanned = lhs'.unspanned → Spaced brackets ts us →
    Matches (SameExpr brackets) (postfixTail fuel free lhs ts) (postfixTail more free lhs' us)
  atom : ∀ {free brackets ts us}, (InnermostFree brackets → free = true) →
    Spaced brackets ts us → Matches (SameExpr brackets) (atom fuel free ts) (atom more free us)
  signed : ∀ {free op s s' brackets ts us}, (InnermostFree brackets → free = true) →
    Spaced brackets ts us →
    Matches (SameExpr brackets) (signed fuel free op s ts) (signed more free op s' us)
  lambda : ∀ {free s s' brackets ts us}, (InnermostFree brackets → free = true) →
    Spaced brackets ts us →
    Matches (SameExpr brackets) (lambda fuel free s ts) (lambda more free s' us)
  conditional : ∀ {free s s' brackets ts us}, (InnermostFree brackets → free = true) →
    Spaced brackets ts us →
    Matches (SameExpr brackets) (conditional fuel free s ts) (conditional more free s' us)
  exprs : ∀ {close b brackets ts us}, close.openAfter (b :: brackets) = brackets →
    Spaced (b :: brackets) ts us →
    Matches (SameExprs brackets) (exprs fuel close ts) (exprs more close us)
  recordFields : ∀ {b brackets ts us}, Spaced (b :: brackets) ts us →
    Matches (SameFields brackets) (recordFields fuel ts) (recordFields more us)
  statements : ∀ {close brackets ts us}, ¬InnermostFree brackets → Spaced brackets ts us →
    Matches (SameStatements brackets) (statements fuel close ts) (statements more close us)

variable {fuel more least : Nat} {lhs lhs' : Expr} {s s' : Span} {op : String} {close : Token}

theorem unspanned_apply (op : InfixOp) (s s' : Span) {rhs rhs' : Expr}
    (hlhs : lhs.unspanned = lhs'.unspanned) (hrhs : rhs.unspanned = rhs'.unspanned) :
    (op.apply s lhs rhs).unspanned = (op.apply s' lhs' rhs').unspanned := by
  unfold InfixOp.apply
  cases op.form <;> simp only [Expr.unspanned, Expr.unspannedAll, hlhs, hrhs]

theorem openAfter_of_infixOp {op : InfixOp} (h : InfixOp.ofToken? t.token = some op)
    (brackets : List Token) : t.token.openAfter brackets = brackets := by
  revert h
  cases t.token <;> intro h <;> first | rfl | cases h

theorem openAfter_of_start {start : Start} (h : Start.ofToken? t.token = some start)
    (brackets : List Token) : t.token.openAfter brackets = start.opened ++ brackets := by
  revert h
  cases t.token <;> intro h <;> cases h <;> rfl

section

variable (ih : Insensitive fuel more) (hfree : InnermostFree brackets → free = true)

include ih

include hfree in
/-- In both sources the operand and the operators after it are the same. -/
theorem matches_expr (h : Spaced brackets ts us) :
    Matches (SameExpr brackets) (expr (fuel + 1) free least ts)
      (expr (more + 1) free least us) := by
  rw [expr, expr]
  refine (ih.operand hfree h).bind ?_
  rintro ⟨lhs, ts⟩ ⟨lhs', us⟩ ⟨hlhs, hrest⟩
  exact ih.infixTail hfree hlhs hrest

include hfree in
/-- An operator is looked for behind newlines only where these are skipped. -/
theorem matches_infixTail (hlhs : lhs.unspanned = lhs'.unspanned) (h : Spaced brackets ts us) :
    Matches (SameExpr brackets) (infixTail (fuel + 1) free least lhs ts)
      (infixTail (more + 1) free least lhs' us) := by
  have hhead := h.sameHead_ahead hfree
  rw [infixTail, infixTail]
  generalize ahead free ts = xs at hhead
  generalize ahead free us = ys at hhead
  cases hhead with
  | nil => exact .ok ⟨hlhs, .nil _⟩
  | @cons t u xs ys htoken hrest =>
    dsimp only
    rw [← htoken]
    split
    · exact .ok ⟨hlhs, .cons htoken hrest⟩
    · next op hop =>
      split
      · exact .ok ⟨hlhs, .cons htoken hrest⟩
      · rw [openAfter_of_infixOp hop] at hrest
        refine (ih.expr hfree hrest.sameHead_skipNewlines.spaced).bind ?_
        rintro ⟨rhs, ts⟩ ⟨rhs', us⟩ ⟨hrhs, hrest⟩
        exact ih.infixTail hfree (unspanned_apply op _ _ hlhs hrhs) hrest

include hfree in
theorem matches_operand (h : Spaced brackets ts us) :
    Matches (SameExpr brackets) (operand (fuel + 1) free ts) (operand (more + 1) free us) := by
  rw [operand, operand]
  refine (ih.atom hfree h).bind ?_
  rintro ⟨lhs, ts⟩ ⟨lhs', us⟩ ⟨hlhs, hrest⟩
  exact ih.postfixTail hfree hlhs hrest

include hfree in
/-- The postfix lies on the line of its operand in both sources, or the newline stands before
neither a parenthesis nor a dollar sign. -/
theorem matches_postfixTail (hlhs : lhs.unspanned = lhs'.unspanned) (h : Spaced brackets ts us) :
    Matches (SameExpr brackets) (postfixTail (fuel + 1) free lhs ts)
      (postfixTail (more + 1) free lhs' us) := by
  cases h with
  | nil =>
    rw [postfixTail, postfixTail]
    exact .ok ⟨hlhs, .nil _⟩
  | @cons _ t u ts us htoken hrest =>
    rw [postfixTail, postfixTail, ← htoken]
    split
    · next ht =>
      rw [ht] at hrest
      refine (ih.exprs rfl hrest).bind ?_
      rintro ⟨args, s, ts⟩ ⟨args', s', us⟩ ⟨hargs, hrest⟩
      dsimp only at hargs hrest ⊢
      exact ih.postfixTail hfree (by simp only [Expr.unspanned, hlhs, hargs]) hrest
    · next ht =>
      rw [ht] at hrest
      refine (hrest.matches_expectName hfree _).bind ?_
      rintro ⟨name, s, ts⟩ ⟨_, s', us⟩ ⟨rfl, hrest⟩
      dsimp only at hrest ⊢
      exact ih.postfixTail hfree (by simp only [Expr.unspanned, hlhs]) hrest
    · exact .ok ⟨hlhs, .cons htoken hrest⟩
  | @insert _ t u ts us hinner hu ht h =>
    -- Neither the line break that was put in nor what it stands before is arguments or a field.
    have hts : postfixTail (fuel + 1) free lhs (t :: ts) = .ok (lhs, t :: ts) := by
      rw [postfixTail]
      split
      · next hparen => exact absurd hparen ht.2.1
      · next hdollar => exact absurd hdollar ht.2.2
      · rfl
    have hus : postfixTail (more + 1) free lhs' (u :: us) = .ok (lhs', u :: us) := by
      rw [postfixTail, hu]
    rw [hts, hus]
    exact .ok ⟨hlhs, .insert hinner hu ht h⟩

include hfree in
/-- An atom opens at most one bracket, and what is inside is read under it. -/
theorem matches_atom (h : Spaced brackets ts us) :
    Matches (SameExpr brackets) (atom (fuel + 1) free ts) (atom (more + 1) free us) := by
  rw [atom, atom]
  refine (h.matches_next hfree).bind ?_
  rintro ⟨t, ts⟩ ⟨u, us⟩ ⟨htoken, hrest⟩
  dsimp only at htoken hrest ⊢
  rw [← htoken]
  cases hstart : Start.ofToken? t.token with
  | none => exact .error _ _
  | some start =>
    rw [openAfter_of_start hstart] at hrest
    cases start with
    | literal literal => exact .ok ⟨rfl, hrest⟩
    | symbol name => exact .ok ⟨rfl, hrest⟩
    | sign op => exact ih.signed hfree hrest
    | paren =>
      refine (ih.expr (fun _ => rfl) hrest).bind ?_
      rintro ⟨inner, ts⟩ ⟨inner', us⟩ ⟨hinner, hclose⟩
      refine (hclose.matches_expect (fun _ => rfl) _ _).bind ?_
      rintro ⟨_, ts⟩ ⟨_, us⟩ hlast
      exact .ok ⟨by simp only [Expr.unspanned, hinner], hlast⟩
    | bracket =>
      refine (ih.exprs rfl hrest).bind ?_
      rintro ⟨items, s, ts⟩ ⟨items', s', us⟩ ⟨hitems, hlast⟩
      exact .ok ⟨by simp only [Expr.unspanned, hitems], hlast⟩
    | brace =>
      dsimp only
      rw [Spaced.startsRecord_eq hrest]
      split
      · refine (ih.recordFields hrest).bind ?_
        rintro ⟨fields, s, ts⟩ ⟨fields', s', us⟩ ⟨hfields, hlast⟩
        exact .ok ⟨by simp only [Expr.unspanned, hfields], hlast⟩
      · have hbrace := not_innermostFree_leftBrace brackets
        refine (ih.statements hbrace hrest).bind ?_
        rintro ⟨stmts, ts⟩ ⟨stmts', us⟩ ⟨hstmts, hclose⟩
        refine (hclose.matches_expect (fun h => absurd h hbrace) _ _).bind ?_
        rintro ⟨_, ts⟩ ⟨_, us⟩ hlast
        exact .ok ⟨by simp only [Expr.unspanned, hstmts], hlast⟩
    | function => exact ih.lambda hfree hrest
    | condition => exact ih.conditional hfree hrest

include hfree in
theorem matches_signed (h : Spaced brackets ts us) :
    Matches (SameExpr brackets) (signed (fuel + 1) free op s ts)
      (signed (more + 1) free op s' us) := by
  rw [signed, signed]
  refine (ih.expr hfree h).bind ?_
  rintro ⟨e, ts⟩ ⟨e', us⟩ ⟨he, hrest⟩
  exact .ok ⟨by simp only [Expr.unspanned, Expr.unspannedAll, he], hrest⟩

include hfree in
theorem matches_lambda (h : Spaced brackets ts us) :
    Matches (SameExpr brackets) (lambda (fuel + 1) free s ts) (lambda (more + 1) free s' us) := by
  rw [lambda, lambda]
  refine (h.matches_expect hfree _ _).bind ?_
  rintro ⟨_, ts⟩ ⟨_, us⟩ hparams
  refine hparams.matches_params.1.bind ?_
  rintro ⟨params, ts⟩ ⟨_, us⟩ ⟨rfl, hbody⟩
  refine (ih.expr hfree hbody.sameHead_skipNewlines.spaced).bind ?_
  rintro ⟨e, ts⟩ ⟨e', us⟩ ⟨he, hrest⟩
  exact .ok ⟨by simp only [Expr.unspanned, he], hrest⟩

include hfree in
/-- Newlines before `else` are skipped even outside of brackets. -/
theorem matches_conditional (h : Spaced brackets ts us) :
    Matches (SameExpr brackets) (conditional (fuel + 1) free s ts)
      (conditional (more + 1) free s' us) := by
  rw [conditional, conditional]
  refine (h.matches_expect hfree _ _).bind ?_
  rintro ⟨_, ts⟩ ⟨_, us⟩ hcond
  refine (ih.expr (fun _ => rfl) hcond).bind ?_
  rintro ⟨cond, ts⟩ ⟨cond', us⟩ ⟨hcond, hclose⟩
  refine (hclose.matches_expect (fun _ => rfl) _ _).bind ?_
  rintro ⟨_, ts⟩ ⟨_, us⟩ hyes
  refine (ih.expr hfree hyes.sameHead_skipNewlines.spaced).bind ?_
  rintro ⟨yes, ts⟩ ⟨yes', us⟩ ⟨hyes, hrest⟩
  dsimp only at hcond hyes hrest ⊢
  have hthen : Matches (SameExpr brackets)
      (.ok (.ifThen cond yes (s.join yes.span), ts))
      (.ok (.ifThen cond' yes' (s'.join yes'.span), us)) :=
    .ok ⟨by simp only [Expr.unspanned, hcond, hyes], hrest⟩
  -- whether there is another branch is seen behind newlines
  have hhead := hrest.sameHead_skipNewlines
  generalize skipNewlines ts = xs at hhead
  generalize skipNewlines us = ys at hhead
  cases hhead with
  | nil => exact hthen
  | @cons t u xs ys htoken helse =>
    dsimp only
    rw [← htoken]
    split
    · next ht =>
      rw [ht] at helse
      refine (ih.expr hfree helse.sameHead_skipNewlines.spaced).bind ?_
      rintro ⟨no, ts⟩ ⟨no', us⟩ ⟨hno, hlast⟩
      exact .ok ⟨by simp only [Expr.unspanned, hcond, hyes, hno], hlast⟩
    · exact hthen

/-- Items and the token that closes them, under the bracket that it closes. -/
theorem matches_exprs (hclose : close.openAfter (b :: brackets) = brackets)
    (h : Spaced (b :: brackets) ts us) :
    Matches (SameExprs brackets) (exprs (fuel + 1) close ts) (exprs (more + 1) close us) := by
  -- newlines are skipped before an item
  have hhead := h.sameHead_skipNewlines
  rw [exprs, exprs]
  generalize skipNewlines ts = xs at hhead
  generalize skipNewlines us = ys at hhead
  cases hhead with
  | nil => exact .error _ _
  | @cons t u xs ys htoken hrest =>
    dsimp only
    rw [← htoken]
    split
    · next ht => exact .ok ⟨rfl, by rwa [ht, hclose] at hrest⟩
    · refine (ih.expr (fun _ => rfl) (.cons htoken hrest)).bind ?_
      rintro ⟨first, ts⟩ ⟨first', us⟩ ⟨hfirst, hsep⟩
      refine (hsep.matches_next (fun _ => rfl)).bind ?_
      rintro ⟨sep, ts⟩ ⟨sep', us⟩ ⟨htoken, hrest⟩
      dsimp only at hfirst htoken hrest ⊢
      rw [← htoken]
      split
      · next ht =>
        exact .ok ⟨by simp only [Expr.unspannedAll, hfirst], by rwa [ht, hclose] at hrest⟩
      · split
        · next ht =>
          rw [ht] at hrest
          refine (ih.exprs hclose hrest).bind ?_
          rintro ⟨others, s, ts⟩ ⟨others', s', us⟩ ⟨hothers, hlast⟩
          exact .ok ⟨by simp only [Expr.unspannedAll, hfirst, hothers], hlast⟩
        · exact .error _ _

/-- Directly between the braces of a record no newline is put in, although it would be skipped. -/
theorem matches_recordFields (h : Spaced (b :: brackets) ts us) :
    Matches (SameFields brackets) (recordFields (fuel + 1) ts) (recordFields (more + 1) us) := by
  have hhead := h.sameHead_skipNewlines
  rw [recordFields, recordFields]
  generalize skipNewlines ts = xs at hhead
  generalize skipNewlines us = ys at hhead
  cases hhead with
  | nil => exact .error _ _
  | @cons t u xs ys htoken hrest =>
    dsimp only
    rw [← htoken]
    split
    · next ht => exact .ok ⟨rfl, by rwa [ht] at hrest⟩
    · have hnamed : Spaced (b :: brackets) (t :: xs) (u :: ys) := .cons htoken hrest
      refine (hnamed.matches_expectName (fun _ => rfl) _).bind ?_
      rintro ⟨name, _, ts⟩ ⟨_, _, us⟩ ⟨rfl, hcolon⟩
      refine (hcolon.matches_expect (fun _ => rfl) _ _).bind ?_
      rintro ⟨_, ts⟩ ⟨_, us⟩ hvalue
      refine (ih.expr (fun _ => rfl) hvalue).bind ?_
      rintro ⟨first, ts⟩ ⟨first', us⟩ ⟨hfirst, hsep⟩
      refine (hsep.matches_next (fun _ => rfl)).bind ?_
      rintro ⟨sep, ts⟩ ⟨sep', us⟩ ⟨htoken, hrest⟩
      dsimp only at hfirst htoken hrest ⊢
      rw [← htoken]
      split
      · next ht =>
        exact .ok ⟨by simp only [Expr.unspannedFields, hfirst], by rwa [ht] at hrest⟩
      · split
        · next ht =>
          rw [ht] at hrest
          refine (ih.recordFields hrest).bind ?_
          rintro ⟨others, s, ts⟩ ⟨others', s', us⟩ ⟨hothers, hlast⟩
          exact .ok ⟨by simp only [Expr.unspannedFields, hfirst, hothers], hlast⟩
        · exact .error _ _

/-- Statements are separated by newlines that both sources have. -/
theorem matches_statements {close : Option Token} (hb : ¬InnermostFree brackets)
    (h : Spaced brackets ts us) :
    Matches (SameStatements brackets) (statements (fuel + 1) close ts)
      (statements (more + 1) close us) := by
  have hhead := h.sameHead_skipSeparators hb
  rw [statements, statements]
  generalize skipSeparators ts = xs at hhead
  generalize skipSeparators us = ys at hhead
  cases hhead with
  | nil => exact .ok ⟨rfl, .nil _⟩
  | @cons t u xs ys htoken hrest =>
    dsimp only
    rw [← htoken]
    split
    · exact .ok ⟨rfl, .cons htoken hrest⟩
    · refine (ih.expr (fun hfree => absurd hfree hb) (.cons htoken hrest)).bind ?_
      rintro ⟨first, ts⟩ ⟨first', us⟩ ⟨hfirst, hnext⟩
      dsimp only at hfirst hnext ⊢
      -- what ends a statement is the same, as newlines have a meaning here
      cases hnext.sameHead hb with
      | nil => exact .ok ⟨by simp only [Expr.unspannedAll, hfirst], .nil _⟩
      | @cons t u ts us htoken hrest =>
        dsimp only
        unfold endsStatement
        rw [← htoken]
        split
        · refine (ih.statements hb hnext).bind ?_
          rintro ⟨others, ts⟩ ⟨others', us⟩ ⟨hothers, hlast⟩
          exact .ok ⟨by simp only [Expr.unspannedAll, hfirst, hothers], hlast⟩
        · exact .error _ _

end

/-- No part of the parser is sensitive to line breaks between brackets. -/
theorem insensitive {fuel more : Nat} (h : fuel ≤ more) : Insensitive fuel more := by
  induction fuel generalizing more with
  | zero =>
    constructor <;> intros <;>
      simp only [expr, infixTail, operand, postfixTail, atom, signed, lambda, conditional, exprs,
        recordFields, statements] <;>
      exact .outOfFuel _
  | succ fuel ih =>
    cases more with
    | zero => cases h
    | succ more =>
      have ih := ih (Nat.le_of_succ_le_succ h)
      exact {
        expr := matches_expr ih
        infixTail := matches_infixTail ih
        operand := matches_operand ih
        postfixTail := matches_postfixTail ih
        atom := matches_atom ih
        signed := matches_signed ih
        lambda := matches_lambda ih
        conditional := matches_conditional ih
        exprs := matches_exprs ih
        recordFields := matches_recordFields ih
        statements := matches_statements ih }

/-! ### Programs -/

/-- Newlines are only added. -/
theorem Spaced.length_le (h : Spaced brackets ts us) : ts.length ≤ us.length := by
  induction h with
  | nil => exact Nat.le_refl _
  | cons _ _ ih =>
    rw [List.length_cons, List.length_cons]
    exact Nat.succ_le_succ ih
  | insert _ _ _ _ ih =>
    exact Nat.le_succ_of_le ih

/-- Lists of lexemes with the same tokens are spaced whatever is open. -/
theorem spaced_of_map_eq (h : ts.map Lexeme.token = us.map Lexeme.token) :
    Spaced brackets ts us := by
  induction ts generalizing us brackets with
  | nil =>
    obtain rfl := List.map_eq_nil_iff.1 h.symm
    exact .nil _
  | cons t ts ih =>
    obtain ⟨u, us, rfl, hu, hus⟩ := List.map_eq_cons_iff.1 h.symm
    exact .cons hu.symm (ih hus.symm)

/-- A newline is inserted under a bracket that is the innermost one at its place. -/
theorem spaced_insert {before after : List Token} {next : Token}
    (hts : ts.map Lexeme.token = before ++ next :: after)
    (hus : us.map Lexeme.token = before ++ .newline :: next :: after)
    (hfree : InnermostFree (before.foldl (fun brackets t => t.openAfter brackets) brackets))
    (hnext : next ≠ .newline ∧ next ≠ .leftParen ∧ next ≠ .dollar) : Spaced brackets ts us := by
  induction before generalizing ts us brackets with
  | nil =>
    obtain ⟨t, ts, rfl, ht, hts⟩ := List.map_eq_cons_iff.1 hts
    obtain ⟨u, us, rfl, hu, hus⟩ := List.map_eq_cons_iff.1 hus
    refine .insert hfree hu (by rwa [ht]) (spaced_of_map_eq ?_)
    rw [List.map_cons, ht, hts, hus]
  | cons first before ih =>
    obtain ⟨t, ts, rfl, rfl, hts'⟩ := List.map_eq_cons_iff.1 hts
    obtain ⟨u, us, rfl, hu, hus'⟩ := List.map_eq_cons_iff.1 hus
    exact .cons hu.symm (ih hts' hus' hfree)

theorem program_of_statements {r : Parsed (List Expr × List Lexeme)}
    (h : statements (4 * ts.length + 4) none ts = r) (hr : r ≠ .outOfFuel) :
    program ts = (r.toExcept hr).map Prod.fst := by
  subst h
  rfl

/-- Programs with line breaks between brackets are read as without these, or both are rejected. -/
theorem Spaced.program (h : Spaced [] ts us) :
    (∃ e e', program ts = .error e ∧ program us = .error e') ∨
      ∃ es es', program ts = .ok es ∧ program us = .ok es' ∧
        Expr.unspannedAll es = Expr.unspannedAll es' := by
  have hle := h.length_le
  have hboth : Matches (SameStatements []) (statements (4 * ts.length + 4) none ts)
      (statements (4 * us.length + 4) none us) :=
    (insensitive (by omega)).statements not_innermostFree_nil h
  generalize hts : statements (4 * ts.length + 4) none ts = x at hboth
  generalize hus : statements (4 * us.length + 4) none us = y at hboth
  cases hboth with
  | ok h =>
    rw [program_of_statements hts (by simp), program_of_statements hus (by simp)]
    exact .inr ⟨_, _, rfl, rfl, h.1⟩
  | error e e' =>
    rw [program_of_statements hts (by simp), program_of_statements hus (by simp)]
    exact .inl ⟨e, e', rfl, rfl⟩
  | outOfFuel y => exact absurd hts (statements_ne_outOfFuel (Nat.le_refl _))

/-- A line break put in where the innermost open bracket is a parenthesis or a bracket, before a
token that is no line break and could not follow an operand, does not change what is read. -/
theorem program_insert_newline {before after : List Token} {next : Token}
    (hts : ts.map Lexeme.token = before ++ next :: after)
    (hus : us.map Lexeme.token = before ++ .newline :: next :: after)
    (hfree : InnermostFree (openBrackets before))
    (hnext : next ≠ .newline ∧ next ≠ .leftParen ∧ next ≠ .dollar) :
    (∃ e e', program ts = .error e ∧ program us = .error e') ∨
      ∃ es es', program ts = .ok es ∧ program us = .ok es' ∧
        Expr.unspannedAll es = Expr.unspannedAll es' :=
  (spaced_insert hts hus hfree hnext).program

/-- Arguments may be broken before a sign, where a statement would end. -/
theorem program_break_before_minus :
    ∃ ts us es es', lexCode? "f(x - y)" = .ok ts ∧ lexCode? "f(x\n- y)" = .ok us ∧
      program ts = .ok es ∧ program us = .ok es' ∧
      Expr.unspannedAll es = Expr.unspannedAll es' := by
  have hts : Scan.ofChars 0 "f(x - y)".toList = ⟨[⟨.ident "f", ⟨0, 1⟩, "f"⟩,
      ⟨.leftParen, ⟨1, 1⟩, "("⟩, ⟨.ident "x", ⟨2, 1⟩, "x"⟩, ⟨.minus, ⟨4, 1⟩, "-"⟩,
      ⟨.ident "y", ⟨6, 1⟩, "y"⟩, ⟨.rightParen, ⟨7, 1⟩, ")"⟩], none⟩ := by decide +kernel
  have hus : Scan.ofChars 0 "f(x\n- y)".toList = ⟨[⟨.ident "f", ⟨0, 1⟩, "f"⟩,
      ⟨.leftParen, ⟨1, 1⟩, "("⟩, ⟨.ident "x", ⟨2, 1⟩, "x"⟩, ⟨.newline, ⟨3, 1⟩, "\n"⟩,
      ⟨.minus, ⟨4, 1⟩, "-"⟩, ⟨.ident "y", ⟨6, 1⟩, "y"⟩, ⟨.rightParen, ⟨7, 1⟩, ")"⟩],
      none⟩ := by decide +kernel
  obtain ⟨ts, hlex, htokens, es, haccepted⟩ : ∃ ts, lexCode? "f(x - y)" = .ok ts ∧
      ts.map Lexeme.token = [.ident "f", .leftParen, .ident "x"] ++
        .minus :: [.ident "y", .rightParen] ∧ ∃ es, program ts = .ok es :=
    ⟨_, lexCode?_of_ofChars hts, rfl, _, rfl⟩
  obtain ⟨us, hlex', htokens'⟩ : ∃ us, lexCode? "f(x\n- y)" = .ok us ∧
      us.map Lexeme.token = [.ident "f", .leftParen, .ident "x"] ++
        .newline :: .minus :: [.ident "y", .rightParen] :=
    ⟨_, lexCode?_of_ofChars hus, rfl⟩
  -- the source without the newline is accepted, and so the other one is
  rcases program_insert_newline htokens htokens' (.inl rfl) (by decide) with
    ⟨e, _, hrejected, -⟩ | ⟨es, es', hes⟩
  · cases haccepted.symm.trans hrejected
  · exact ⟨ts, us, es, es', hlex, hlex', hes⟩

end Parser

end PipeLang
