import Mathlib.Data.List.DropRight
import PipeLang.Proofs.Parsing
import PipeLang.Proofs.Shift

/-!
# Reading on after more text

What a part of the parser has read, it reads again where the same lexemes stand further on in a
text and other lexemes come after them (`placed`), provided that these begin on a new line and not
with `else` (`Detached`).

The parser looks beyond the last lexeme that it takes in four places only: an operator, arguments
or a field may follow an operand, `else` may follow the first branch of a conditional on a later
line, and a colon may follow a name after an opening brace.  Where line breaks carry no meaning an
operator could follow on a later line; but there the text goes on in any case, as a bracket is
still open.  So each part is read again if line breaks end statements or something is left
(`Bounded`).  The stages are

1. looking for the next lexeme commutes with placing (`skipNewlines_placed`, `ahead_placed`);
2. each part of the parser reads again what it has read (`Extends`), by induction on the fuel
   (`extends_of_detached`);
3. so the statements of a program are read before those of another one (`extends_statements`).
-/

namespace PipeLang.Parser

/-- The lexemes `k` bytes further on, before the lexemes `x`. -/
def placed (k : Nat) (x ts : List Lexeme) : List Lexeme := ts.map (Lexeme.shift k) ++ x

/-- Lexemes that begin on a new line, and not with `else`. -/
structure Detached (x : List Lexeme) : Prop where
  newline : ∀ t ∈ x.head?, t.token = .newline
  noElse : ∀ t ∈ (skipNewlines x).head?, t.token ≠ .elseWord

/-- Something is left, unless line breaks end statements. -/
def Bounded (free : Bool) (rest : List Lexeme) : Prop := free = true → rest ≠ []

variable {free : Bool} {least fuel k : Nat} {e lhs : Expr} {es : List Expr} {s : Span}
  {t : Lexeme} {ts us rest mid x : List Lexeme} {close : Option Token}

/-! ### The next lexeme -/

@[simp] theorem placed_nil (k : Nat) (x : List Lexeme) : placed k x [] = x := rfl

@[simp] theorem placed_cons (k : Nat) (x : List Lexeme) (t : Lexeme) (rest : List Lexeme) :
    placed k x (t :: rest) = t.shift k :: placed k x rest := rfl

theorem detached_nil : Detached [] := ⟨by simp, by simp [skipNewlines]⟩

theorem bounded_false (rest : List Lexeme) : Bounded false rest := by rintro ⟨⟩

/-- What is left later was left before. -/
theorem Bounded.of_length_le (h : Bounded free rest) (hle : rest.length ≤ mid.length) :
    Bounded free mid := by
  rintro hfree rfl
  exact h hfree (List.eq_nil_of_length_eq_zero (Nat.le_zero.1 hle))

/-- What is passed over at the start is so with more behind it, as long as something remains. -/
theorem dropWhile_placed (x : List Lexeme) {p : Lexeme → Bool} (hp : ∀ t, p (t.shift k) = p t)
    (h : ts.dropWhile p ≠ []) :
    (placed k x ts).dropWhile p = placed k x (ts.dropWhile p) := by
  induction ts with
  | nil => exact absurd rfl h
  | cons t rest ih =>
    by_cases ht : p t = true
    · rw [List.dropWhile_cons_of_pos ht] at h ⊢
      rw [placed_cons, List.dropWhile_cons_of_pos ((hp t).trans ht)]
      exact ih h
    · have ht' : ¬p (t.shift k) = true := by rwa [hp]
      rw [List.dropWhile_cons_of_neg ht, placed_cons, List.dropWhile_cons_of_neg ht']

/-- Where nothing remains, the same is passed over in what was added. -/
theorem dropWhile_placed_nil (x : List Lexeme) {p : Lexeme → Bool} (hp : ∀ t, p (t.shift k) = p t)
    (h : ts.dropWhile p = []) : (placed k x ts).dropWhile p = x.dropWhile p := by
  have hall : ∀ t ∈ ts.map (Lexeme.shift k), p t = true := by
    intro t ht
    obtain ⟨u, hu, rfl⟩ := List.mem_map.1 ht
    rw [hp]
    exact List.dropWhile_eq_nil_iff.1 h u hu
  rw [placed, List.dropWhile_append_of_pos hall]

/-- The first lexeme behind newlines is the same, moved. -/
theorem skipNewlines_placed (k : Nat) (x : List Lexeme) (h : skipNewlines ts = t :: rest) :
    skipNewlines (placed k x ts) = t.shift k :: placed k x rest := by
  have hne : skipNewlines ts ≠ [] := by rw [h]; exact List.cons_ne_nil t rest
  have hplaced := dropWhile_placed (k := k) x (fun _ => rfl) hne
  rw [← placed_cons, ← h]
  exact hplaced

theorem skipSeparators_placed (k : Nat) (x : List Lexeme) (h : skipSeparators ts = t :: rest) :
    skipSeparators (placed k x ts) = t.shift k :: placed k x rest := by
  have hne : skipSeparators ts ≠ [] := by rw [h]; exact List.cons_ne_nil t rest
  have hplaced := dropWhile_placed (k := k) x (fun _ => rfl) hne
  rw [← placed_cons, ← h]
  exact hplaced

/-- The lexeme ahead is the same, at its place, when more text follows. -/
theorem ahead_placed (k : Nat) (x : List Lexeme) (h : ahead free ts = t :: rest) :
    ahead free (placed k x ts) = t.shift k :: placed k x rest := by
  cases free
  · rw [show ts = t :: rest from h]
    rfl
  · exact skipNewlines_placed k x h

/-- Where an expression has been read there is a lexeme that is no line break. -/
theorem skipNewlines_placed_of_expr (k : Nat) (x : List Lexeme)
    (h : expr fuel free least (skipNewlines ts) = .ok (e, rest)) :
    skipNewlines (placed k x ts) = placed k x (skipNewlines ts) := by
  cases hts : skipNewlines ts with
  | nil =>
    have hlt := (progress fuel).expr h
    rw [hts] at hlt
    cases hlt
  | cons t tail =>
    rw [skipNewlines_placed k x hts]
    rfl

/-- Where statements have been read and something is left, there is a lexeme that is no line
break. -/
theorem skipNewlines_ne_nil_of_statements (h : statements fuel close ts = .ok (es, rest))
    (hrest : rest ≠ []) : skipNewlines ts ≠ [] := by
  intro hnil
  have hskip : skipSeparators ts = [] := by
    refine List.dropWhile_eq_nil_iff.2 fun t ht => ?_
    have hnewline : (t.token == .newline) = true := List.dropWhile_eq_nil_iff.1 hnil t ht
    rw [hnewline, Bool.true_or]
  cases fuel with
  | zero => rw [statements] at h; cases h
  | succ fuel =>
    rw [statements, hskip] at h
    cases h
    exact hrest rfl

/-- Statements end before their closing token or at the end of the text. -/
theorem closes_of_statements (h : statements fuel close ts = .ok (es, rest)) :
    ∀ t ∈ rest.head?, some t.token = close := by
  induction fuel generalizing ts es with
  | zero => rw [statements] at h; cases h
  | succ fuel ih =>
    rw [statements] at h
    split at h
    · cases h
      simp
    · next t tail ht =>
      split at h
      -- the statements end before the closing token, at the end of the source, or where the rest of
      -- them end
      · next hclose =>
        cases h
        rintro u ⟨⟩
        exact hclose
      · obtain ⟨⟨first, mid⟩, -, h⟩ := Outcome.bind_eq_ok_iff.1 h
        dsimp only at h
        split at h
        · cases h
          simp
        · split at h
          · obtain ⟨⟨others, last⟩, ho, h⟩ := Outcome.bind_eq_ok_iff.1 h
            cases h
            exact ih ho
          · cases h

/-- A record starts where it started, and a block is no record: what follows a name on a new line
is no colon. -/
theorem startsRecord_placed (k : Nat) (hx : Detached x) (hts : skipNewlines ts ≠ []) :
    startsRecord (placed k x ts) = startsRecord ts := by
  unfold startsRecord
  cases h : skipNewlines ts with
  | nil => exact absurd h hts
  | cons t rest =>
    rw [skipNewlines_placed k x h]
    cases rest with
    | cons u rest => rfl
    | nil =>
      rw [placed_nil]
      cases x with
      | nil => rfl
      | cons u x =>
        have hu := hx.newline u rfl
        simp only [hu]
        split <;> simp_all

/-! ### Parameters -/

mutual

/-- The parameters of a function are read as before, and leave what was added. -/
theorem paramNames_placed (k : Nat) (x : List Lexeme) {ts rest : List Lexeme}
    {names : List String} (h : paramNames ts = .ok (names, rest)) :
    paramNames (placed k x ts) = .ok (names, placed k x rest) := by
  cases ts with
  | nil => rw [paramNames] at h; cases h
  | cons t tail =>
    rw [placed_cons]
    -- the tokens are the same, so the same case applies
    unfold paramNames at h ⊢
    rw [Lexeme.token_shift]
    split at h
    · exact paramNames_placed k x h
    · cases h
      rfl
    · obtain ⟨⟨others, after⟩, ha, h⟩ := Outcome.bind_eq_ok_iff.1 h
      cases h
      simp only
      rw [afterParam_placed k x ha]
      rfl
    · obtain ⟨⟨others, after⟩, ha, h⟩ := Outcome.bind_eq_ok_iff.1 h
      cases h
      simp only
      rw [afterParam_placed k x ha]
      rfl
    · cases h

/-- What follows a parameter is the same, at its place, when more text follows. -/
theorem afterParam_placed (k : Nat) (x : List Lexeme) {ts rest : List Lexeme}
    {names : List String} (h : afterParam ts = .ok (names, rest)) :
    afterParam (placed k x ts) = .ok (names, placed k x rest) := by
  cases ts with
  | nil => rw [afterParam] at h; cases h
  | cons t tail =>
    rw [placed_cons]
    unfold afterParam at h ⊢
    rw [Lexeme.token_shift]
    split at h
    · exact afterParam_placed k x h
    · cases h
      rfl
    · exact paramNames_placed k x h
    · cases h

end

/-! ### What each part of the parser reads again -/

/-- The tokens that alone start an operand of their kind. -/
theorem token_of_start {t : Token} {start : Start} (h : Start.ofToken? t = some start) :
    match start with
    | .paren => t = .leftParen
    | .bracket => t = .leftBracket
    | .brace => t = .leftBrace
    | .condition => t = .ifWord
    | _ => True := by
  cases t <;> cases h <;> trivial

/-- What each part of the parser has read with one amount of fuel, it reads again `k` bytes further
on and before the lexemes `x`. -/
structure Extends (k : Nat) (x : List Lexeme) (fuel : Nat) : Prop where
  expr : ∀ {free least ts e rest}, Bounded free rest → expr fuel free least ts = .ok (e, rest) →
    GivesExpr free least (placed k x ts) (.ok (e.shift k, placed k x rest))
  infixTail : ∀ {free least lhs ts e rest}, Bounded free rest →
    infixTail fuel free least lhs ts = .ok (e, rest) →
    GivesInfix free least (lhs.shift k) (placed k x ts) (.ok (e.shift k, placed k x rest))
  operand : ∀ {free ts e rest}, Bounded free rest → operand fuel free ts = .ok (e, rest) →
    GivesOperand free (placed k x ts) (.ok (e.shift k, placed k x rest))
  postfixTail : ∀ {free lhs ts e rest}, postfixTail fuel free lhs ts = .ok (e, rest) →
    GivesPostfix free (lhs.shift k) (placed k x ts) (.ok (e.shift k, placed k x rest))
  atom : ∀ {free ts e rest}, Bounded free rest → atom fuel free ts = .ok (e, rest) →
    GivesAtom free (placed k x ts) (.ok (e.shift k, placed k x rest))
  signed : ∀ {free sign t tail ts e rest}, Bounded free rest →
    ahead free ts = t :: tail → Start.ofToken? t.token = some (.sign sign) →
    signed fuel free sign t.span tail = .ok (e, rest) →
    GivesAtom free (placed k x ts) (.ok (e.shift k, placed k x rest))
  lambda : ∀ {free t tail ts e rest}, Bounded free rest →
    ahead free ts = t :: tail → Start.ofToken? t.token = some .function →
    lambda fuel free t.span tail = .ok (e, rest) →
    GivesAtom free (placed k x ts) (.ok (e.shift k, placed k x rest))
  conditional : ∀ {free t tail ts e rest}, Bounded free rest →
    ahead free ts = t :: tail → t.token = .ifWord →
    conditional fuel free t.span tail = .ok (e, rest) →
    GivesAtom free (placed k x ts) (.ok (e.shift k, placed k x rest))
  exprs : ∀ {close ts es s rest}, close ≠ .comma → exprs fuel close ts = .ok (es, s, rest) →
    GivesExprs close (placed k x ts) (.ok (Expr.shiftAll k es, s.shift k, placed k x rest))
  recordFields : ∀ {ts fields s rest}, recordFields fuel ts = .ok (fields, s, rest) →
    GivesFields (placed k x ts) (.ok (Expr.shiftFields k fields, s.shift k, placed k x rest))
  statements : ∀ {close ts es rest es' after},
    GivesStatements close (placed k x rest) (.ok (es', after)) →
    statements fuel close ts = .ok (es, rest) →
    GivesStatements close (placed k x ts) (.ok (Expr.shiftAll k es ++ es', after))

variable (hx : Detached x) (ih : Extends k x fuel)

section

include ih

/-- An expression is read by the same operand and operators. -/
theorem extends_expr (hrest : Bounded free rest)
    (h : expr (fuel + 1) free least ts = .ok (e, rest)) :
    GivesExpr free least (placed k x ts) (.ok (e.shift k, placed k x rest)) := by
  rw [expr] at h
  obtain ⟨⟨lhs, mid⟩, ho, h⟩ := Outcome.bind_eq_ok_iff.1 h
  have hle := (progress fuel).infixTail h
  exact givesExpr (ih.operand (hrest.of_length_le hle) ho) (ih.infixTail hrest h)

/-- An operand is read by the same atom, calls and fields. -/
theorem extends_operand (hrest : Bounded free rest)
    (h : operand (fuel + 1) free ts = .ok (e, rest)) :
    GivesOperand free (placed k x ts) (.ok (e.shift k, placed k x rest)) := by
  rw [operand] at h
  obtain ⟨⟨lhs, mid⟩, ha, h⟩ := Outcome.bind_eq_ok_iff.1 h
  have hle := (progress fuel).postfixTail h
  exact givesOperand (ih.atom (hrest.of_length_le hle) ha) (ih.postfixTail h)

include hx

/-- Behind a whole expression the text that was added has no operator that would go on with it. -/
theorem extends_infixTail (hrest : Bounded free rest)
    (h : infixTail (fuel + 1) free least lhs ts = .ok (e, rest)) :
    GivesInfix free least (lhs.shift k) (placed k x ts) (.ok (e.shift k, placed k x rest)) := by
  rw [infixTail] at h
  split at h
  -- the text ended here, where now a line break may follow
  · next hahead =>
    cases h
    cases free with
    | true => exact absurd rfl (hrest rfl)
    | false =>
      obtain rfl : ts = [] := hahead
      refine givesInfix_stop rfl fun t ht op hop => ?_
      rw [hx.newline t ht] at hop
      cases hop
  · next t tail hahead =>
    have hahead' := ahead_placed k x hahead
    split at h
    · next hop =>
      cases h
      refine givesInfix_stop hahead' ?_
      rintro u ⟨⟩ op hop'
      rw [Lexeme.token_shift, hop] at hop'
      cases hop'
    · next op hop =>
      split at h
      · next hlt =>
        cases h
        refine givesInfix_stop hahead' ?_
        rintro u ⟨⟩ op' hop'
        rw [Lexeme.token_shift, hop] at hop'
        cases hop'
        exact hlt
      · next hle =>
        obtain ⟨⟨rhs, mid⟩, he, h⟩ := Outcome.bind_eq_ok_iff.1 h
        have hmid := hrest.of_length_le ((progress fuel).infixTail h)
        have hright := ih.expr hmid he
        rw [← skipNewlines_placed_of_expr k x he] at hright
        have hoperator := ih.infixTail hrest h
        rw [← InfixOp.apply_shift] at hoperator
        exact givesInfix_cons hahead' hop (Nat.le_of_not_lt hle) hright hoperator

/-- The text that was added begins on a new line, so no call or field follows. -/
theorem extends_postfixTail (h : postfixTail (fuel + 1) free lhs ts = .ok (e, rest)) :
    GivesPostfix free (lhs.shift k) (placed k x ts) (.ok (e.shift k, placed k x rest)) := by
  cases ts with
  | nil =>
    rw [postfixTail] at h
    cases h
    refine givesPostfix_stop fun t ht => ?_
    rw [hx.newline t ht]
    decide
  | cons t tail =>
    rw [postfixTail] at h
    split at h
    · next ht =>
      -- the span of the call is moved with its parts
      obtain ⟨⟨args, s, mid⟩, hargs, h⟩ := Outcome.bind_eq_ok_iff.1 h
      refine givesPostfix_args ht (ih.exprs (by decide) hargs) ?_
      rw [Expr.span_shift, Span.join_shift]
      exact ih.postfixTail h
    · next ht =>
      obtain ⟨⟨name, s, mid⟩, hname, h⟩ := Outcome.bind_eq_ok_iff.1 h
      obtain ⟨u, hahead, hu, rfl⟩ := exists_ahead_of_expectName hname
      refine givesPostfix_field ht (ahead_placed k x hahead) hu ?_
      rw [Expr.span_shift, Lexeme.span_shift, Span.join_shift]
      exact ih.postfixTail h
    · next hparen hdollar =>
      cases h
      refine givesPostfix_stop ?_
      rintro u ⟨⟩
      exact ⟨hparen, hdollar⟩

end

section

include ih

/-- A sign is read with the same expression. -/
theorem extends_signed {sign : String} {tail : List Lexeme} (hrest : Bounded free rest)
    (hahead : ahead free ts = t :: tail) (ht : Start.ofToken? t.token = some (.sign sign))
    (h : signed (fuel + 1) free sign t.span tail = .ok (e, rest)) :
    GivesAtom free (placed k x ts) (.ok (e.shift k, placed k x rest)) := by
  rw [signed] at h
  obtain ⟨⟨inner, after⟩, he, h⟩ := Outcome.bind_eq_ok_iff.1 h
  cases h
  have hatom := givesAtom_sign (ahead_placed k x hahead) ht (ih.expr hrest he)
  rw [Expr.span_shift, Lexeme.span_shift, Span.join_shift] at hatom
  exact hatom

/-- A function is read with the same parameters and body. -/
theorem extends_lambda {tail : List Lexeme} (hrest : Bounded free rest)
    (hahead : ahead free ts = t :: tail) (ht : Start.ofToken? t.token = some .function)
    (h : lambda (fuel + 1) free t.span tail = .ok (e, rest)) :
    GivesAtom free (placed k x ts) (.ok (e.shift k, placed k x rest)) := by
  rw [lambda] at h
  obtain ⟨⟨u, mid⟩, hp, h₁⟩ := Outcome.bind_eq_ok_iff.1 h
  obtain ⟨⟨params, body⟩, hn, h₂⟩ := Outcome.bind_eq_ok_iff.1 h₁
  obtain ⟨⟨inner, after⟩, he, h₃⟩ := Outcome.bind_eq_ok_iff.1 h₂
  clear h h₁ h₂
  cases h₃
  obtain ⟨hopen, hu⟩ := ahead_of_expect hp
  have hbody := ih.expr hrest he
  rw [← skipNewlines_placed_of_expr k x he] at hbody
  have hatom := givesAtom_lambda (ahead_placed k x hahead) ht (ahead_placed k x hopen) hu
    (paramNames_placed k x hn) hbody
  rw [Expr.span_shift, Lexeme.span_shift, Span.join_shift] at hatom
  exact hatom

include hx

/-- A conditional is read with the same parts: the text that was added is no alternative. -/
theorem extends_conditional {tail : List Lexeme} (hrest : Bounded free rest)
    (hahead : ahead free ts = t :: tail) (ht : t.token = .ifWord)
    (h : conditional (fuel + 1) free t.span tail = .ok (e, rest)) :
    GivesAtom free (placed k x ts) (.ok (e.shift k, placed k x rest)) := by
  rw [conditional] at h
  obtain ⟨⟨u, mid⟩, hp, h₁⟩ := Outcome.bind_eq_ok_iff.1 h
  obtain ⟨⟨cond, afterCond⟩, hc, h₂⟩ := Outcome.bind_eq_ok_iff.1 h₁
  obtain ⟨⟨v, body⟩, hq, h₃⟩ := Outcome.bind_eq_ok_iff.1 h₂
  obtain ⟨⟨yes, afterYes⟩, hy, h₄⟩ := Outcome.bind_eq_ok_iff.1 h₃
  clear h h₁ h₂ h₃
  dsimp only at hc hq hy h₄
  obtain ⟨hopen, hu⟩ := ahead_of_expect hp
  obtain ⟨hclose, hv⟩ := ahead_of_expect hq
  have hbounded : Bounded true afterCond := by
    rintro - rfl
    cases hclose
  have hif := ahead_placed k x hahead
  have hopen' := ahead_placed k x hopen
  have hcond := ih.expr hbounded hc
  have hclose' := ahead_placed k x hclose
  -- the first branch, once it is known that something is left where line breaks have no meaning
  have hyes : Bounded free afterYes → GivesExpr free Power.assign (skipNewlines (placed k x body))
      (.ok (yes.shift k, placed k x afterYes)) := by
    intro hafter
    rw [skipNewlines_placed_of_expr k x hy]
    exact ih.expr hafter hy
  split at h₄
  · next w last hw =>
    have hne : afterYes ≠ [] := by
      rintro rfl
      cases hw
    have hw' := skipNewlines_placed k x hw
    split at h₄
    · next helse =>
      obtain ⟨⟨no, afterNo⟩, hn, h₅⟩ := Outcome.bind_eq_ok_iff.1 h₄
      cases h₅
      have hno := ih.expr hrest hn
      rw [← skipNewlines_placed_of_expr k x hn] at hno
      have hatom := givesAtom_ifElse hif ht hopen' hu hcond hclose' hv (hyes fun _ => hne) hw'
        helse hno
      rw [Expr.span_shift, Lexeme.span_shift, Span.join_shift] at hatom
      exact hatom
    · next helse =>
      cases h₄
      have hatom := givesAtom_ifThen hif ht hopen' hu hcond hclose' hv (hyes hrest)
        (by rw [hw']; rintro _ ⟨⟩; exact helse)
      rw [Expr.span_shift, Lexeme.span_shift, Span.join_shift] at hatom
      exact hatom
  -- the text ended here, where now an `else` would be looked for
  · next hnil =>
    cases h₄
    have hskip : skipNewlines (placed k x rest) = skipNewlines x :=
      dropWhile_placed_nil x (fun _ => rfl) hnil
    have hatom := givesAtom_ifThen hif ht hopen' hu hcond hclose' hv (hyes hrest)
      (by rw [hskip]; exact hx.noElse)
    rw [Expr.span_shift, Lexeme.span_shift, Span.join_shift] at hatom
    exact hatom

/-- An atom is read in the same case. -/
theorem extends_atom (hrest : Bounded free rest) (h : atom (fuel + 1) free ts = .ok (e, rest)) :
    GivesAtom free (placed k x ts) (.ok (e.shift k, placed k x rest)) := by
  rw [atom] at h
  obtain ⟨⟨t, tail⟩, hn, h'⟩ := Outcome.bind_eq_ok_iff.1 h
  clear h
  have hnext := ahead_of_next hn
  have hahead := ahead_placed k x hnext
  dsimp only at h'
  split at h'
  · cases h'
  · next literal ht =>
    cases h'
    exact givesAtom_literal hahead ht
  · next name ht =>
    cases h'
    exact givesAtom_symbol hahead ht
  · next sign ht => exact ih.signed hrest hnext ht h'
  -- whatever stands between brackets
  · next ht =>
    obtain ⟨⟨inner, mid⟩, he, h₁⟩ := Outcome.bind_eq_ok_iff.1 h'
    obtain ⟨⟨u, after⟩, hc, h₂⟩ := Outcome.bind_eq_ok_iff.1 h₁
    cases h₂
    obtain ⟨hclose, hu⟩ := ahead_of_expect hc
    have hbounded : Bounded true mid := by
      rintro - rfl
      cases hclose
    have hatom := givesAtom_paren hahead (token_of_start ht) (ih.expr hbounded he)
      (ahead_placed k x hclose) hu
    rw [Lexeme.span_shift, Lexeme.span_shift, Span.join_shift] at hatom
    exact hatom
  · next ht =>
    obtain ⟨⟨items, s, after⟩, he, h₁⟩ := Outcome.bind_eq_ok_iff.1 h'
    cases h₁
    have hatom := givesAtom_bracket hahead (token_of_start ht) (ih.exprs (by decide) he)
    rw [Lexeme.span_shift, Span.join_shift] at hatom
    exact hatom
  · next ht =>
    split at h'
    · next hrecord =>
      obtain ⟨⟨fields, s, after⟩, hf, h₁⟩ := Outcome.bind_eq_ok_iff.1 h'
      cases h₁
      have hne : skipNewlines tail ≠ [] := by
        intro hnil
        rw [startsRecord, hnil] at hrecord
        cases hrecord
      have hatom := givesAtom_record hahead (token_of_start ht)
        ((startsRecord_placed k hx hne).trans hrecord) (ih.recordFields hf)
      rw [Lexeme.span_shift, Span.join_shift] at hatom
      exact hatom
    · next hrecord =>
      obtain ⟨⟨stmts, mid⟩, he, h₁⟩ := Outcome.bind_eq_ok_iff.1 h'
      obtain ⟨⟨u, after⟩, hc, h₂⟩ := Outcome.bind_eq_ok_iff.1 h₁
      cases h₂
      obtain ⟨hclose, hu⟩ := ahead_of_expect hc
      cases mid with
      | nil => cases free <;> cases hclose
      | cons v others =>
        have hv : some v.token = some Token.rightBrace := closes_of_statements he v rfl
        have hnewline : v.token ≠ .newline := by
          rintro hnewline
          rw [hnewline] at hv
          cases hv
        have hskip :
            skipSeparators (placed k x (v :: others)) = v.shift k :: placed k x others := by
          refine skipSeparators_cons hnewline ?_
          rintro hsemicolon
          rw [Lexeme.token_shift] at hsemicolon
          rw [hsemicolon] at hv
          cases hv
        have hstmts := ih.statements (givesStatements_nil hskip hv) he
        rw [List.append_nil] at hstmts
        have hne := skipNewlines_ne_nil_of_statements he (List.cons_ne_nil v others)
        have hatom := givesAtom_block hahead (token_of_start ht)
          ((startsRecord_placed k hx hne).trans (Bool.eq_false_iff.2 hrecord)) hstmts
          (ahead_placed k x hclose) hu
        rw [Lexeme.span_shift, Lexeme.span_shift, Span.join_shift] at hatom
        exact hatom
  · next ht => exact ih.lambda hrest hnext ht h'
  · next ht => exact ih.conditional hrest hnext (token_of_start ht) h'

end

/-! ### Lists -/

section

include ih

/-- The items of a list are read up to the same bracket. -/
theorem extends_exprs {close : Token} (hclose : close ≠ .comma)
    (h : exprs (fuel + 1) close ts = .ok (es, s, rest)) :
    GivesExprs close (placed k x ts) (.ok (Expr.shiftAll k es, s.shift k, placed k x rest)) := by
  rw [exprs] at h
  split at h
  · cases h
  · next t tail hskip =>
    have hskip' := skipNewlines_placed k x hskip
    split at h
    · next ht =>
      cases h
      exact givesExprs_nil hskip' ht
    · next ht =>
      obtain ⟨⟨first, mid⟩, he, h₁⟩ := Outcome.bind_eq_ok_iff.1 h
      obtain ⟨⟨sep, after⟩, hn, h₂⟩ := Outcome.bind_eq_ok_iff.1 h₁
      clear h h₁
      have hsep := ahead_of_next hn
      -- a comma or the bracket follows the item, so it does not end the source
      have hbounded : Bounded true mid := by
        rintro - rfl
        cases hsep
      have hfirst := ih.expr hbounded he
      have hsep' := ahead_placed k x hsep
      dsimp only at h₂
      split at h₂
      · next hu =>
        cases h₂
        exact givesExprs_singleton hskip' ht hfirst hsep' hu
      · split at h₂
        · next hu =>
          obtain ⟨⟨others, stop, last⟩, ho, h₃⟩ := Outcome.bind_eq_ok_iff.1 h₂
          cases h₃
          exact givesExprs_cons hskip' ht hfirst hsep' hu hclose (ih.exprs hclose ho)
        · cases h₂

/-- The fields of a record are read up to the same brace. -/
theorem extends_recordFields {fields : List (String × Expr)}
    (h : recordFields (fuel + 1) ts = .ok (fields, s, rest)) :
    GivesFields (placed k x ts)
      (.ok (Expr.shiftFields k fields, s.shift k, placed k x rest)) := by
  rw [recordFields] at h
  split at h
  · cases h
  · next t tail hskip =>
    have hskip' := skipNewlines_placed k x hskip
    split at h
    · next ht =>
      cases h
      exact givesFields_nil hskip' ht
    · obtain ⟨⟨name, s', afterName⟩, hm, h₁⟩ := Outcome.bind_eq_ok_iff.1 h
      obtain ⟨⟨u, value⟩, hc, h₂⟩ := Outcome.bind_eq_ok_iff.1 h₁
      obtain ⟨⟨first, mid⟩, he, h₃⟩ := Outcome.bind_eq_ok_iff.1 h₂
      obtain ⟨⟨sep, after⟩, hn, h₄⟩ := Outcome.bind_eq_ok_iff.1 h₃
      clear h h₁ h₂ h₃
      dsimp only at hc he hn h₄
      obtain ⟨v, hname, hv, -⟩ := exists_ahead_of_expectName hm
      -- the name is what was looked at first
      have hhead : ahead true (t :: tail) = t :: tail := by
        rw [← hskip]
        exact List.dropWhile_idempotent _ _
      obtain ⟨rfl, rfl⟩ := List.cons.inj (hhead.symm.trans hname)
      obtain ⟨hcolon, hu⟩ := ahead_of_expect hc
      have hsep := ahead_of_next hn
      have hbounded : Bounded true mid := by
        rintro - rfl
        cases hsep
      have hcolon' := ahead_placed k x hcolon
      have hfirst := ih.expr hbounded he
      have hsep' := ahead_placed k x hsep
      split at h₄
      · next hw =>
        cases h₄
        exact givesFields_singleton hskip' hv hcolon' hu hfirst hsep' hw
      · split at h₄
        · next hw =>
          obtain ⟨⟨others, stop, last⟩, ho, h₅⟩ := Outcome.bind_eq_ok_iff.1 h₄
          cases h₅
          exact givesFields_cons hskip' hv hcolon' hu hfirst hsep' hw (ih.recordFields ho)
        · cases h₄

include hx

/-- The statements are read one after the other, and then those that were added. -/
theorem extends_statements {after : List Lexeme} {es' : List Expr}
    (hes' : GivesStatements close (placed k x rest) (.ok (es', after)))
    (h : statements (fuel + 1) close ts = .ok (es, rest)) :
    GivesStatements close (placed k x ts) (.ok (Expr.shiftAll k es ++ es', after)) := by
  rw [statements] at h
  split at h
  -- only separators before the end of the text
  · next hnil =>
    cases h
    refine givesStatements_of_skipSeparators (dropWhile_placed_nil x (fun _ => rfl) hnil) ?_ hes'
    simp [placed]
  · next t tail hskip =>
    have hskip' := skipSeparators_placed k x hskip
    split at h
    · cases h
      refine givesStatements_of_skipSeparators ?_ ?_ hes'
      · rw [hskip', placed_cons, ← hskip']
        exact (List.dropWhile_idempotent _ _).symm
      · have hle := length_skipSeparators_le ts
        rw [hskip] at hle
        simp only [placed, List.length_append, List.length_map]
        omega
    · next ht =>
      obtain ⟨⟨first, mid⟩, he, h⟩ := Outcome.bind_eq_ok_iff.1 h
      have hfirst := ih.expr (bounded_false mid) he
      dsimp only at h
      split at h
      -- the last statement ended with the text
      · cases h
        cases x with
        | nil =>
          obtain ⟨rfl, rfl⟩ : [] = es' ∧ [] = after := by
            have hend := hes' 4 (by simp)
            rw [placed_nil, statements] at hend
            cases hend
            exact ⟨rfl, rfl⟩
          exact givesStatements_last hskip' ht hfirst
        | cons u x =>
          have hu : endsStatement close u = true := by
            rw [endsStatement, hx.newline u rfl]
            rfl
          exact givesStatements_cons hskip' ht hfirst hu hes'
      · next u others =>
        split at h
        · next hu =>
          obtain ⟨⟨more, last⟩, ho, h⟩ := Outcome.bind_eq_ok_iff.1 h
          cases h
          exact givesStatements_cons hskip' ht hfirst hu (ih.statements hes' ho)
        · cases h

end

/-- Every part of the parser reads again what it has read, whatever its fuel. -/
theorem extends_of_detached (k : Nat) (hx : Detached x) (fuel : Nat) : Extends k x fuel := by
  induction fuel with
  | zero =>
    constructor <;> intros <;> rename_i h <;>
      simp [expr, infixTail, operand, postfixTail, atom, signed, lambda, conditional, exprs,
        recordFields, statements] at h
  | succ fuel ih =>
    exact {
      expr := extends_expr ih
      infixTail := extends_infixTail hx ih
      operand := extends_operand ih
      postfixTail := extends_postfixTail hx ih
      atom := extends_atom hx ih
      signed := extends_signed ih
      lambda := extends_lambda ih
      conditional := extends_conditional hx ih
      exprs := extends_exprs ih
      recordFields := extends_recordFields ih
      statements := extends_statements hx ih }

end PipeLang.Parser
