import PipeLang.Parser.Program
import PipeLang.Proofs.Enclosed
import PipeLang.Proofs.Lexemes

/-!
# Programs in print are read back

The main result (`parseExpr_print`) is that a statement of a program is parsed from its printed
form again, up to spans and up to the parentheses that are printed around callees, provided that
the program has no line breaks, no floats and no symbol `neg`.

The printer puts no parentheses around operands, so this depends on which trees the parser gives:
a sum within a product only comes in parentheses, and a sign, a function or a conditional takes all
that follows it.  What the parser gives is therefore described along its recursion, with one
statement for each of its parts (`RoundTrips`), by induction on the fuel.  The stages are

1. the lexemes of a source text are spelled as their tokens say, and they are plain (`Readable`);
2. each part of the parser leaves readable lexemes, and what it gives prints into its tokens and is
   read back before what is left (`Recovers`);
3. so the statements of a program print into their tokens and stand alone (`stands_of_program`);
4. so what is printed is cut into these tokens and read back (`exists_parseExpr_print`).

A name before a colon may be a word of the language, as the names of fields in records are.  It
would not be one elsewhere, so nothing is said of an expression that ends where a colon follows
(`NoColon`); no expression of a program does.
-/

namespace PipeLang

/-- A token of the programs that are read back: line breaks are not, as statements are printed in
one line, nor are floats, nor the function that a minus sign stands for. -/
def Token.IsPlain (t : Token) : Prop := t ≠ .newline ∧ (∀ x, t ≠ .float x) ∧ t ≠ .ident "neg"

namespace Parser

/-- Lexemes of a source text, all of them plain. -/
structure Readable (ts : List Lexeme) : Prop where
  lexed : Lexed ts
  plain : ∀ t ∈ ts, t.token.IsPlain

/-- No colon follows. -/
def NoColon (ts : List Lexeme) : Prop := ∀ t ∈ ts.head?, t.token ≠ .colon

variable {free : Bool} {least fuel : Nat} {e lhs : Expr} {es : List Expr} {s : Span}
  {t : Lexeme} {op : InfixOp} {ts rest : List Lexeme} {name : String}

/-! ### Readable lexemes -/

theorem Readable.tail (h : Readable (t :: rest)) : Readable rest := by
  obtain ⟨hlexed, hplain⟩ := h
  cases hlexed with
  | cons _ hrest => exact ⟨hrest, (List.forall_mem_cons.1 hplain).2⟩

/-- The first lexeme can be spelled before the next one, and is no newline. -/
theorem Readable.head (h : Readable (t :: rest)) :
    t.token.Spelled (rest.head?.map Lexeme.token) ∧ t.token.IsPlain := by
  obtain ⟨hlexed, hplain⟩ := h
  cases hlexed with
  | cons hspelled _ => exact ⟨hspelled, (List.forall_mem_cons.1 hplain).1⟩

/-- Some lexemes at the start may be passed over. -/
theorem Readable.dropWhile (h : Readable ts) (p : Lexeme → Bool) : Readable (ts.dropWhile p) := by
  induction ts with
  | nil => exact h
  | cons t rest ih =>
    rw [List.dropWhile_cons]
    split
    · exact ih h.tail
    · exact h

/-- Without newlines the lexeme ahead is the next one. -/
theorem Readable.ahead_eq (h : Readable ts) (free : Bool) : ahead free ts = ts :=
  ahead_eq_self free fun t ht => (h.plain t (List.mem_of_mem_head? ht)).1

theorem Readable.skipNewlines_eq (h : Readable ts) : skipNewlines ts = ts := h.ahead_eq true

theorem Readable.eq_cons_of_next (h : Readable ts) (hn : next free ts = .ok (t, rest)) :
    ts = t :: rest := by
  rw [← h.ahead_eq free]
  exact ahead_of_next hn

/-- An expected lexeme is the next one. -/
theorem Readable.eq_cons_of_expect {token : Token} {what : String} (h : Readable ts)
    (hn : expect free token what ts = .ok (t, rest)) : ts = t :: rest ∧ t.token = token := by
  rw [← h.ahead_eq free]
  exact ahead_of_expect hn

theorem Readable.eq_cons_of_expectName {what : String} (h : Readable ts)
    (hn : expectName free what ts = .ok (name, s, rest)) :
    ∃ t, ts = t :: rest ∧ t.token = .ident name := by
  obtain ⟨t, hahead, ht, -⟩ := exists_ahead_of_expectName hn
  rw [h.ahead_eq] at hahead
  exact ⟨t, hahead, ht⟩

/-- A name that no colon follows is no word of the language. -/
theorem Readable.isIdentifier (h : Readable (t :: rest)) (ht : t.token = .ident name)
    (hrest : NoColon rest) : IsIdentifier name := by
  have hspelled := h.head.1
  rw [ht] at hspelled
  refine ⟨hspelled.1, hspelled.2.resolve_right fun hcolon => ?_⟩
  obtain ⟨u, hu, hcolon⟩ := Option.map_eq_some_iff.1 hcolon
  exact hrest u hu hcolon

theorem Readable.isSpecial (h : Readable (t :: rest)) (ht : t.token = .special name) :
    IsSpecial name := by
  have hspelled := h.head.1
  rwa [ht] at hspelled

/-! ### Symbols and literals -/

/-- Nothing that is written between or before operands starts like a name. -/
theorem isPlainCallee_of_isName (hname : IsName name) (hneg : name ≠ "neg") :
    isOperator name = false ∧ sign? name = none := by
  obtain ⟨c, plain, tail, hlist, hc, -⟩ := hname
  have hhead : name.toList.head? = some c := by rw [hlist]; rfl
  have hne : ∀ op : String, op.toList.head?.all (fun c => !LexClass.startsName c) = true →
      name ≠ op := by
    rintro op hop rfl
    rw [hhead, Option.all_some, hc] at hop
    cases hop
  constructor
  · have hpercent : c ≠ '%' := by
      rintro rfl
      cases hc
    simp only [isOperator, hhead, Bool.or_eq_false_iff]
    refine ⟨by simp [hpercent], ?_⟩
    rw [List.contains_eq_mem, decide_eq_false_iff_not]
    intro hmem
    have hall : ∀ op ∈ ["+", "-", "*", "/", "==", "!=", "<", "<=", ">", ">=", "&&", "||"],
        op.toList.head?.all (fun c => !LexClass.startsName c) = true := by decide
    exact hne name (hall name hmem) rfl
  · rw [sign?, if_neg hneg, if_neg (hne "!" (by decide))]

/-- A symbol other than `neg` is called as it is written. -/
theorem isPlainCallee_sym (hname : IsSymbol name) (hneg : name ≠ "neg") :
    IsPlainCallee (.sym name s) := by
  rcases hname with rfl | hname
  · exact ⟨by decide, by decide⟩
  · exact isPlainCallee_of_isName hname.1 hneg

/-- The token of a literal is known from the literal. -/
theorem token_of_literal {t : Token} {literal : Literal}
    (h : Start.ofToken? t = some (.literal literal)) : literal.token = t := by
  cases t <;> cases h <;> rfl

/-- A symbol is an identifier, or the dot. -/
theorem token_of_symbol {t : Token} (h : Start.ofToken? t = some (.symbol name)) :
    t = .ident name ∨ name = placeholder := by
  cases t <;> cases h
  · exact .inr rfl
  · exact .inl rfl

/-! ### Parameters -/

theorem noColon_cons {token : Token} (ht : t.token = token) (htoken : token ≠ .colon)
    (rest : List Lexeme) : NoColon (t :: rest) := by
  rintro u ⟨⟩
  rw [ht]
  exact htoken

mutual

/-- The parameters of a function are symbols, and the rest is readable. -/
theorem Readable.of_paramNames {ts rest : List Lexeme} {names : List String} (h : Readable ts)
    (hn : paramNames ts = .ok (names, rest)) : Readable rest ∧ ∀ p ∈ names, IsSymbol p := by
  cases ts with
  | nil => rw [paramNames] at hn; cases hn
  | cons t tail =>
    rw [paramNames] at hn
    split at hn
    · next ht => exact absurd ht h.head.2.1
    · cases hn
      exact ⟨h.tail, by simp⟩
    · next name ht =>
      obtain ⟨⟨others, after⟩, ha, hn⟩ := Outcome.bind_eq_ok_iff.1 hn
      cases hn
      obtain ⟨hrest, hcolon, hall⟩ := Readable.of_afterParam h.tail ha
      exact ⟨hrest, List.forall_mem_cons.2 ⟨.inr (h.isIdentifier ht hcolon), hall⟩⟩
    · obtain ⟨⟨others, after⟩, ha, hn⟩ := Outcome.bind_eq_ok_iff.1 hn
      cases hn
      obtain ⟨hrest, -, hall⟩ := Readable.of_afterParam h.tail ha
      exact ⟨hrest, List.forall_mem_cons.2 ⟨.inl rfl, hall⟩⟩
    · cases hn

/-- After a parameter comes a comma or the end, and no colon. -/
theorem Readable.of_afterParam {ts rest : List Lexeme} {names : List String} (h : Readable ts)
    (hn : afterParam ts = .ok (names, rest)) :
    Readable rest ∧ NoColon ts ∧ ∀ p ∈ names, IsSymbol p := by
  cases ts with
  | nil => rw [afterParam] at hn; cases hn
  | cons t tail =>
    rw [afterParam] at hn
    split at hn
    · next ht => exact absurd ht h.head.2.1
    · next ht =>
      cases hn
      exact ⟨h.tail, noColon_cons ht (by simp) _, by simp⟩
    · next ht =>
      obtain ⟨hrest, hall⟩ := Readable.of_paramNames h.tail hn
      exact ⟨hrest, noColon_cons ht (by simp) _, hall⟩
    · cases hn

end

/-! ### What each part of the parser gives -/

/-- What is left can be read on, and the expression prints into its tokens and is read back as `P`
says, unless a colon follows. -/
def Recovers (P : List Lexeme → Expr → Prop) (rest : List Lexeme) (e : Expr) : Prop :=
  Readable rest ∧ EndsOperand rest ∧ (NoColon rest → Prints e ∧ P rest e)

/-- An atom is closed, or no arguments and no field follow. -/
def RereadsStart (after : List Lexeme) (e : Expr) : Prop :=
  IsClosed e ∧ IsPlainCallee e ∨ EndsOperand after ∧ RereadsAtom after e

/-- What is left can be read on, and each of the expressions prints into its tokens and stands. -/
def RecoversAll (rest : List Lexeme) (es : List Expr) : Prop :=
  Readable rest ∧ ∀ e ∈ es, Prints e ∧ Stands e

/-- What each part of the parser gives for readable lexemes, at one amount of fuel. -/
structure RoundTrips (fuel : Nat) : Prop where
  expr : ∀ {free least ts e rest}, Readable ts → expr fuel free least ts = .ok (e, rest) →
    Recovers (RereadsExpr least) rest e
  infixTail : ∀ {free least lhs ts e rest}, Readable ts → EndsOperand ts →
    (NoColon ts → Prints lhs) → infixTail fuel free least lhs ts = .ok (e, rest) →
    Recovers (fun after e => NoColon ts ∧ RereadsInfix least lhs ts e after) rest e
  operand : ∀ {free ts e rest}, Readable ts → operand fuel free ts = .ok (e, rest) →
    Recovers RereadsOperand rest e
  postfixTail : ∀ {free lhs ts e rest}, Readable ts →
    (NoColon ts → Prints lhs ∧ RereadsStart ts lhs) →
    postfixTail fuel free lhs ts = .ok (e, rest) → Recovers RereadsOperand rest e
  atom : ∀ {free ts e rest}, Readable ts → atom fuel free ts = .ok (e, rest) →
    Readable rest ∧ (NoColon rest → Prints e ∧ RereadsStart rest e)
  signed : ∀ {free op s ts e rest} {t : Lexeme}, Start.ofToken? t.token = some (.sign op) →
    Readable ts → signed fuel free op s ts = .ok (e, rest) → Recovers RereadsAtom rest e
  lambda : ∀ {free s ts e rest}, Readable ts → lambda fuel free s ts = .ok (e, rest) →
    Recovers RereadsAtom rest e
  conditional : ∀ {free s ts e rest}, Readable ts → conditional fuel free s ts = .ok (e, rest) →
    Recovers RereadsAtom rest e
  exprs : ∀ {close ts es s rest}, close.isCloser = true → Readable ts →
    exprs fuel close ts = .ok (es, s, rest) → RecoversAll rest es
  recordFields : ∀ {ts fields s rest}, Readable ts →
    recordFields fuel ts = .ok (fields, s, rest) →
    RecoversAll rest (fields.map Prod.snd) ∧ ∀ f ∈ fields, IsName f.1
  statements : ∀ {close ts es rest}, (∀ t ∈ close, t.isCloser = true) → Readable ts →
    statements fuel close ts = .ok (es, rest) → RecoversAll rest es

/-- What is reread up to its end is reread as an operand. -/
theorem RereadsStart.rereadsOperand (h : RereadsStart ts e) (hts : EndsOperand ts) :
    RereadsOperand ts e :=
  h.elim (fun h => IsClosed.rereadsOperand h.1 hts) fun h => RereadsAtom.rereadsOperand h.2 hts

theorem Closes.noColon (h : Closes ts) : NoColon ts := by
  intro t ht heq
  have hcloser := h t ht
  rw [heq] at hcloser
  cases hcloser

/-- Before a token that ends every expression. -/
theorem Recovers.stands (h : Recovers (RereadsExpr 0) rest e) (hrest : Closes rest) :
    Prints e ∧ Stands e :=
  have he := h.2.2 hrest.noColon
  ⟨he.1, RereadsExpr.stands he.2 hrest⟩

/-- Without newlines only a semicolon or the closing brace ends a statement. -/
theorem isCloser_of_endsStatement {close : Option Token} (hclose : ∀ t ∈ close, t.isCloser = true)
    (hnewline : t.token ≠ .newline) (h : endsStatement close t = true) :
    t.token.isCloser = true := by
  simp only [endsStatement, Bool.or_eq_true, beq_iff_eq] at h
  rcases h with (h | h) | h
  · exact absurd h hnewline
  · rw [h]
    rfl
  · exact hclose _ h.symm

/-- A record has a field at least. -/
theorem ne_nil_of_startsRecord {fields : List (String × Expr)} (hrecord : startsRecord ts = true)
    (h : recordFields fuel ts = .ok (fields, s, rest)) : fields ≠ [] := by
  cases fuel with
  | zero => rw [recordFields] at h; cases h
  | succ fuel =>
    rw [startsRecord] at hrecord
    rw [recordFields] at h
    split at hrecord
    · next t u more heq =>
      rw [heq] at h
      split at hrecord
      · next name ht hu =>
        -- the name is not the closing brace, so at least one field is read
        simp only [ht, reduceCtorEq, if_false] at h
        obtain ⟨⟨name, s', afterName⟩, -, h₁⟩ := Outcome.bind_eq_ok_iff.1 h
        obtain ⟨⟨u, value⟩, -, h₂⟩ := Outcome.bind_eq_ok_iff.1 h₁
        obtain ⟨⟨first, mid⟩, -, h₃⟩ := Outcome.bind_eq_ok_iff.1 h₂
        obtain ⟨⟨sep, after⟩, -, h₄⟩ := Outcome.bind_eq_ok_iff.1 h₃
        dsimp only at h₄
        split at h₄
        · cases h₄
          simp
        · split at h₄
          · obtain ⟨⟨others, stop, last⟩, ho, h₅⟩ := Outcome.bind_eq_ok_iff.1 h₄
            cases h₅
            simp
          · cases h₄
      · cases hrecord
    · cases hrecord

variable (ih : RoundTrips fuel)

include ih

/-- An expression is recovered from its operand and its infix operators. -/
theorem recovers_expr (hts : Readable ts) (h : expr (fuel + 1) free least ts = .ok (e, rest)) :
    Recovers (RereadsExpr least) rest e := by
  rw [expr] at h
  obtain ⟨⟨lhs, mid⟩, ho, h⟩ := Outcome.bind_eq_ok_iff.1 h
  obtain ⟨hmid, hends, hlhs⟩ := ih.operand hts ho
  obtain ⟨hrest, hends', he⟩ := ih.infixTail hmid hends (fun hcolon => (hlhs hcolon).1) h
  refine ⟨hrest, hends', fun hcolon => ?_⟩
  obtain ⟨hprints, hcolon', hoperator⟩ := he hcolon
  exact ⟨hprints, rereadsExpr (hlhs hcolon').2 hoperator⟩

/-- A further operator is printed with the tree so far on its left, which binds tightly enough. -/
theorem recovers_infixTail (hts : Readable ts) (hends : EndsOperand ts)
    (hlhs : NoColon ts → Prints lhs)
    (h : infixTail (fuel + 1) free least lhs ts = .ok (e, rest)) :
    Recovers (fun after e => NoColon ts ∧ RereadsInfix least lhs ts e after) rest e := by
  have hstop : (∀ t ∈ ts.head?, ∀ op, InfixOp.ofToken? t.token = some op → op.left < least) →
      Recovers (fun after e => NoColon ts ∧ RereadsInfix least lhs ts e after) ts lhs :=
    fun hop => ⟨hts, hends, fun hcolon => ⟨hlhs hcolon, hcolon, rereadsInfix_stop hends hop⟩⟩
  rw [infixTail, hts.ahead_eq] at h
  split at h
  · cases h
    exact hstop (by simp)
  · next t tail =>
    split at h
    · next hop =>
      cases h
      refine hstop ?_
      rintro u ⟨⟩ op hop'
      rw [hop] at hop'
      cases hop'
    · next op hop =>
      split at h
      · next hlt =>
        cases h
        refine hstop ?_
        rintro u ⟨⟩ op' hop'
        rw [hop] at hop'
        cases hop'
        exact hlt
      · next hle =>
        -- the operator is taken, and what it builds goes on as an operand
        obtain ⟨⟨rhs, mid⟩, he, h⟩ := Outcome.bind_eq_ok_iff.1 h
        have hspecial : ∀ name, t.token = .special name → IsSpecial name :=
          fun name hname => hts.isSpecial hname
        have hcolon : NoColon (t :: tail) :=
          noColon_cons rfl (by rintro heq; rw [heq] at hop; cases hop) _
        rw [hts.tail.skipNewlines_eq] at he
        obtain ⟨hmid, hends', hrhs⟩ := ih.expr hts.tail he
        obtain ⟨hrest, hends'', hoperator⟩ := ih.infixTail hmid hends'
          (fun hmid => prints_apply hop hspecial (hlhs hcolon) (hrhs hmid).1) h
        refine ⟨hrest, hends'', fun hrest => ?_⟩
        obtain ⟨hprints, hcolon', hoperator⟩ := hoperator hrest
        exact ⟨hprints, hcolon,
          rereadsInfix_cons hop hspecial (Nat.le_of_not_lt hle) (hrhs hcolon').2 hoperator⟩

/-- An operand is recovered from its atom and its calls and fields. -/
theorem recovers_operand (hts : Readable ts) (h : operand (fuel + 1) free ts = .ok (e, rest)) :
    Recovers RereadsOperand rest e := by
  rw [operand] at h
  obtain ⟨⟨lhs, mid⟩, ha, h⟩ := Outcome.bind_eq_ok_iff.1 h
  obtain ⟨hmid, hlhs⟩ := ih.atom hts ha
  exact ih.postfixTail hmid hlhs h

/-- A further call or field is printed behind the tree so far. -/
theorem recovers_postfixTail (hts : Readable ts)
    (hlhs : NoColon ts → Prints lhs ∧ RereadsStart ts lhs)
    (h : postfixTail (fuel + 1) free lhs ts = .ok (e, rest)) :
    Recovers RereadsOperand rest e := by
  have hstop : EndsOperand ts → Recovers RereadsOperand ts lhs := fun hends =>
    ⟨hts, hends, fun hcolon => ⟨(hlhs hcolon).1, (hlhs hcolon).2.rereadsOperand hends⟩⟩
  cases ts with
  | nil =>
    rw [postfixTail] at h
    cases h
    exact hstop closes_nil.endsOperand
  | cons t tail =>
    rw [postfixTail] at h
    split at h
    -- arguments: what they apply to is closed, as nothing else ends before a parenthesis
    · next ht =>
      obtain ⟨⟨args, s, mid⟩, hargs, happlied⟩ := Outcome.bind_eq_ok_iff.1 h
      obtain ⟨hprints, hstart⟩ := hlhs (noColon_cons ht (by simp) tail)
      obtain ⟨hclosed, hplain⟩ := hstart.resolve_right fun hopen => (hopen.1 t rfl).2.1 ht
      obtain ⟨hmid, hall⟩ := ih.exprs rfl hts.tail hargs
      refine ih.postfixTail hmid (fun _ => ⟨?_, .inl ⟨?_, ?_⟩⟩) happlied
      · exact prints_call hplain hprints fun e he => (hall e he).1
      · exact isClosed_call hplain hclosed fun e he => (hall e he).2
      · trivial
    -- a field, likewise
    · next ht =>
      obtain ⟨⟨name, s, mid⟩, hname, happlied⟩ := Outcome.bind_eq_ok_iff.1 h
      obtain ⟨hprints, hstart⟩ := hlhs (noColon_cons ht (by simp) tail)
      obtain ⟨hclosed, -⟩ := hstart.resolve_right fun hopen => (hopen.1 t rfl).2.2 ht
      obtain ⟨u, rfl, hu⟩ := hts.tail.eq_cons_of_expectName hname
      refine ih.postfixTail hts.tail.tail (fun hcolon => ⟨?_, .inl ⟨?_, ?_⟩⟩) happlied
      · exact prints_field hprints (hts.tail.isIdentifier hu hcolon)
      · exact isClosed_field hclosed
      · trivial
    · next hparen hdollar =>
      cases h
      refine hstop ?_
      rintro u ⟨⟩
      exact ⟨hts.head.2.1, hparen, hdollar⟩

/-- A sign is recovered with the expression that it applies to. -/
theorem recovers_signed {sign : String} (ht : Start.ofToken? t.token = some (.sign sign))
    (hts : Readable ts) (h : signed (fuel + 1) free sign s ts = .ok (e, rest)) :
    Recovers RereadsAtom rest e := by
  rw [signed] at h
  obtain ⟨⟨inner, after⟩, he, h⟩ := Outcome.bind_eq_ok_iff.1 h
  cases h
  obtain ⟨hrest, hends, he⟩ := ih.expr hts he
  exact ⟨hrest, hends, fun hcolon =>
    ⟨prints_sign ht (he hcolon).1, rereadsAtom_sign ht (he hcolon).2⟩⟩

/-- A function is recovered with its parameters and its body. -/
theorem recovers_lambda (hts : Readable ts) (h : lambda (fuel + 1) free s ts = .ok (e, rest)) :
    Recovers RereadsAtom rest e := by
  rw [lambda] at h
  obtain ⟨⟨t, mid⟩, hp, h⟩ := Outcome.bind_eq_ok_iff.1 h
  dsimp only at h
  obtain ⟨⟨params, after⟩, hn, h⟩ := Outcome.bind_eq_ok_iff.1 h
  dsimp only at h
  obtain ⟨⟨body, tail⟩, he, h⟩ := Outcome.bind_eq_ok_iff.1 h
  cases h
  obtain ⟨rfl, -⟩ := hts.eq_cons_of_expect hp
  obtain ⟨hafter, hparams⟩ := hts.tail.of_paramNames hn
  rw [hafter.skipNewlines_eq] at he
  obtain ⟨hrest, hends, he⟩ := ih.expr hafter he
  exact ⟨hrest, hends, fun hcolon =>
    ⟨prints_lambda hparams (he hcolon).1, rereadsAtom_lambda (he hcolon).2⟩⟩

/-- A conditional is recovered with its parts, and an alternative if there is one. -/
theorem recovers_conditional (hts : Readable ts)
    (h : conditional (fuel + 1) free s ts = .ok (e, rest)) : Recovers RereadsAtom rest e := by
  rw [conditional] at h
  obtain ⟨⟨t, mid⟩, hp, h₁⟩ := Outcome.bind_eq_ok_iff.1 h
  obtain ⟨⟨cond, afterCond⟩, hc, h₂⟩ := Outcome.bind_eq_ok_iff.1 h₁
  obtain ⟨⟨u, body⟩, hq, h₃⟩ := Outcome.bind_eq_ok_iff.1 h₂
  obtain ⟨⟨yes, afterYes⟩, hy, h₄⟩ := Outcome.bind_eq_ok_iff.1 h₃
  clear h h₁ h₂ h₃
  dsimp only at hc hq hy h₄
  obtain ⟨rfl, -⟩ := hts.eq_cons_of_expect hp
  have hcond := ih.expr hts.tail hc
  obtain ⟨rfl, hu⟩ := hcond.1.eq_cons_of_expect hq
  obtain ⟨hcondPrints, hcondStands⟩ := hcond.stands (closes_cons (by rw [hu]; rfl) body)
  rw [hcond.1.tail.skipNewlines_eq] at hy
  obtain ⟨hafter, hends, hyes⟩ := ih.expr hcond.1.tail hy
  rw [hafter.skipNewlines_eq] at h₄
  -- without an alternative
  have hthen : (∀ t ∈ afterYes.head?, t.token ≠ .elseWord) →
      Recovers RereadsAtom afterYes (.ifThen cond yes (s.join yes.span)) := fun helse =>
    ⟨hafter, hends, fun hcolon => ⟨prints_ifThen hcondPrints (hyes hcolon).1,
      rereadsAtom_ifThen hcondStands (hyes hcolon).2 fun t ht => ⟨(hends t ht).1, helse t ht⟩⟩⟩
  split at h₄
  · next w tail =>
    split at h₄
    · next hw =>
      obtain ⟨⟨no, afterNo⟩, hn, h₅⟩ := Outcome.bind_eq_ok_iff.1 h₄
      cases h₅
      rw [hafter.tail.skipNewlines_eq] at hn
      obtain ⟨hrest, hends', hno⟩ := ih.expr hafter.tail hn
      obtain ⟨hyesPrints, hyesReads⟩ := hyes (noColon_cons hw (by simp) tail)
      exact ⟨hrest, hends', fun hcolon => ⟨prints_ifElse hcondPrints hyesPrints (hno hcolon).1,
        rereadsAtom_ifElse hcondStands hw hyesReads (hno hcolon).2⟩⟩
    · next hw =>
      cases h₄
      refine hthen ?_
      rintro v ⟨⟩
      exact hw
  · cases h₄
    exact hthen (by simp)

/-- The items of a list are recovered one by one, each of them followed by a comma or the closing
bracket. -/
theorem recoversAll_exprs {close : Token} (hclose : close.isCloser = true) (hts : Readable ts)
    (h : exprs (fuel + 1) close ts = .ok (es, s, rest)) : RecoversAll rest es := by
  rw [exprs, hts.skipNewlines_eq] at h
  split at h
  · cases h
  · next t tail =>
    split at h
    · cases h
      exact ⟨hts.tail, by simp⟩
    · obtain ⟨⟨first, mid⟩, he, h₁⟩ := Outcome.bind_eq_ok_iff.1 h
      obtain ⟨⟨sep, after⟩, hn, h₂⟩ := Outcome.bind_eq_ok_iff.1 h₁
      clear h h₁
      dsimp only at hn h₂
      have hfirst := ih.expr hts he
      obtain rfl := hfirst.1.eq_cons_of_next hn
      split at h₂
      -- the last item, or one with others behind it
      · next hsep =>
        cases h₂
        exact ⟨hfirst.1.tail, List.forall_mem_singleton.2
          (hfirst.stands (closes_cons (hsep ▸ hclose) _))⟩
      · split at h₂
        · next hsep =>
          obtain ⟨⟨others, stop, last⟩, ho, h₃⟩ := Outcome.bind_eq_ok_iff.1 h₂
          cases h₃
          obtain ⟨hrest, hothers⟩ := ih.exprs hclose hfirst.1.tail ho
          exact ⟨hrest, List.forall_mem_cons.2
            ⟨hfirst.stands (closes_cons (by rw [hsep]; rfl) _), hothers⟩⟩
        · cases h₂

/-- So are the values of a record, whose names can be spelled. -/
theorem recoversAll_recordFields {fields : List (String × Expr)} (hts : Readable ts)
    (h : recordFields (fuel + 1) ts = .ok (fields, s, rest)) :
    RecoversAll rest (fields.map Prod.snd) ∧ ∀ f ∈ fields, IsName f.1 := by
  rw [recordFields, hts.skipNewlines_eq] at h
  split at h
  · cases h
  · next t tail =>
    split at h
    · cases h
      exact ⟨⟨hts.tail, by simp⟩, by simp⟩
    · obtain ⟨⟨name, s', afterName⟩, hm, h₁⟩ := Outcome.bind_eq_ok_iff.1 h
      obtain ⟨⟨u, value⟩, hc, h₂⟩ := Outcome.bind_eq_ok_iff.1 h₁
      obtain ⟨⟨first, mid⟩, he, h₃⟩ := Outcome.bind_eq_ok_iff.1 h₂
      obtain ⟨⟨sep, after⟩, hn, h₄⟩ := Outcome.bind_eq_ok_iff.1 h₃
      clear h h₁ h₂ h₃
      dsimp only at hc he hn h₄
      obtain ⟨v, heq, hv⟩ := hts.eq_cons_of_expectName hm
      obtain ⟨rfl, rfl⟩ := List.cons.inj heq
      -- the name has been lexed, so it can be spelled
      have hname : IsName name := by
        have hspelled := hts.head.1
        rw [hv] at hspelled
        exact hspelled.1
      obtain ⟨rfl, -⟩ := hts.tail.eq_cons_of_expect hc
      have hfirst := ih.expr hts.tail.tail he
      obtain rfl := hfirst.1.eq_cons_of_next hn
      split at h₄
      · next hsep =>
        cases h₄
        exact ⟨⟨hfirst.1.tail, List.forall_mem_singleton.2
          (hfirst.stands (closes_cons (by rw [hsep]; rfl) _))⟩, List.forall_mem_singleton.2 hname⟩
      · split at h₄
        · next hsep =>
          obtain ⟨⟨others, stop, last⟩, ho, h₅⟩ := Outcome.bind_eq_ok_iff.1 h₄
          cases h₅
          obtain ⟨⟨hrest, hothers⟩, hnames⟩ := ih.recordFields hfirst.1.tail ho
          exact ⟨⟨hrest, List.forall_mem_cons.2
            ⟨hfirst.stands (closes_cons (by rw [hsep]; rfl) _), hothers⟩⟩,
            List.forall_mem_cons.2 ⟨hname, hnames⟩⟩
        · cases h₄

/-- The statements of a block are read back from what they are printed as. -/
theorem recoversAll_statements {close : Option Token} (hclose : ∀ t ∈ close, t.isCloser = true)
    (hts : Readable ts) (h : statements (fuel + 1) close ts = .ok (es, rest)) :
    RecoversAll rest es := by
  have hskip : Readable (skipSeparators ts) := hts.dropWhile _
  rw [statements] at h
  split at h
  · cases h
    exact ⟨⟨.nil, by simp⟩, by simp⟩
  · next t tail ht =>
    rw [ht] at hskip
    split at h
    · cases h
      exact ⟨hskip, by simp⟩
    · obtain ⟨⟨first, mid⟩, he, h⟩ := Outcome.bind_eq_ok_iff.1 h
      dsimp only at h
      have hfirst := ih.expr hskip he
      split at h
      · cases h
        exact ⟨hfirst.1, List.forall_mem_singleton.2 (hfirst.stands closes_nil)⟩
      · next u after =>
        split at h
        · next hu =>
          obtain ⟨⟨others, last⟩, ho, h⟩ := Outcome.bind_eq_ok_iff.1 h
          cases h
          -- a statement is followed by a semicolon or the end of the block
          have hcloser := isCloser_of_endsStatement hclose hfirst.1.head.2.1 hu
          obtain ⟨hrest, hothers⟩ := ih.statements hclose hfirst.1 ho
          exact ⟨hrest, List.forall_mem_cons.2
            ⟨hfirst.stands (closes_cons hcloser _), hothers⟩⟩
        · cases h

/-- An atom is recovered by its first lexeme: a literal, a symbol, a sign, a keyword or an opening
bracket. -/
theorem recovers_atom (hts : Readable ts) (h : atom (fuel + 1) free ts = .ok (e, rest)) :
    Readable rest ∧ (NoColon rest → Prints e ∧ RereadsStart rest e) := by
  rw [atom] at h
  obtain ⟨⟨t, tail⟩, hn, h'⟩ := Outcome.bind_eq_ok_iff.1 h
  clear h
  obtain rfl := hts.eq_cons_of_next hn
  have hspelled := hts.head.1
  have hplain := hts.head.2
  have htail := hts.tail
  dsimp only at h'
  split at h'
  · cases h'
  -- literals and symbols
  · next literal hstart =>
    cases h'
    have htoken := token_of_literal hstart
    refine ⟨htail, fun _ => ⟨prints_lit ?_ ?_, .inl ⟨isClosed_lit _ _, trivial⟩⟩⟩
    · rintro x rfl
      exact hplain.2.1 x htoken.symm
    · rintro n rfl
      rw [← htoken] at hspelled
      exact hspelled
  · next name hstart =>
    cases h'
    refine ⟨htail, fun hcolon => ?_⟩
    have hsymbol : IsSymbol name ∧ name ≠ "neg" := by
      rcases token_of_symbol hstart with ht | rfl
      · exact ⟨.inr (hts.isIdentifier ht hcolon), fun hneg => hplain.2.2 (hneg ▸ ht)⟩
      · exact ⟨.inl rfl, by decide⟩
    exact ⟨prints_sym hsymbol.1, .inl ⟨isClosed_sym _ _, isPlainCallee_sym hsymbol.1 hsymbol.2⟩⟩
  -- a sign takes all that it can, so only what ends an operand follows
  · next sign hstart =>
    obtain ⟨hrest, hends, he⟩ := ih.signed hstart htail h'
    exact ⟨hrest, fun hcolon => ⟨(he hcolon).1, .inr ⟨hends, (he hcolon).2⟩⟩⟩
  -- whatever stands between brackets is closed
  · obtain ⟨⟨inner, mid⟩, he, h₁⟩ := Outcome.bind_eq_ok_iff.1 h'
    obtain ⟨⟨u, after⟩, hc, h₂⟩ := Outcome.bind_eq_ok_iff.1 h₁
    cases h₂
    have hinner := ih.expr htail he
    obtain ⟨rfl, hu⟩ := hinner.1.eq_cons_of_expect hc
    obtain ⟨hprints, hstands⟩ := hinner.stands (closes_cons (by rw [hu]; rfl) _)
    exact ⟨hinner.1.tail, fun _ =>
      ⟨prints_paren hprints, .inl ⟨isClosed_paren hstands, trivial⟩⟩⟩
  · obtain ⟨⟨items, s', after⟩, he, h₁⟩ := Outcome.bind_eq_ok_iff.1 h'
    cases h₁
    obtain ⟨hrest, hall⟩ := ih.exprs rfl htail he
    exact ⟨hrest, fun _ => ⟨prints_list fun e he => (hall e he).1,
      .inl ⟨isClosed_list fun e he => (hall e he).2, trivial⟩⟩⟩
  · split at h'
    · next hrecord =>
      obtain ⟨⟨fields, s', after⟩, hf, h₁⟩ := Outcome.bind_eq_ok_iff.1 h'
      cases h₁
      obtain ⟨⟨hrest, hall⟩, hnames⟩ := ih.recordFields htail hf
      have hvalues : ∀ f ∈ fields, Prints f.2 ∧ Stands f.2 :=
        fun f hmem => hall f.2 (List.mem_map_of_mem hmem)
      exact ⟨hrest, fun _ => ⟨prints_record fun f hmem => ⟨hnames f hmem, (hvalues f hmem).1⟩,
        .inl ⟨isClosed_record (fun f hmem => (hvalues f hmem).2)
          (ne_nil_of_startsRecord hrecord hf), trivial⟩⟩⟩
    · obtain ⟨⟨stmts, mid⟩, he, h₁⟩ := Outcome.bind_eq_ok_iff.1 h'
      obtain ⟨⟨u, after⟩, hc, h₂⟩ := Outcome.bind_eq_ok_iff.1 h₁
      cases h₂
      obtain ⟨hmid, hall⟩ := ih.statements (by rintro t ⟨⟩; rfl) htail he
      obtain ⟨rfl, -⟩ := hmid.eq_cons_of_expect hc
      exact ⟨hmid.tail, fun _ => ⟨prints_block fun e he => (hall e he).1,
        .inl ⟨isClosed_block fun e he => (hall e he).2, trivial⟩⟩⟩
  -- functions and conditionals are like signs
  · obtain ⟨hrest, hends, he⟩ := ih.lambda htail h'
    exact ⟨hrest, fun hcolon => ⟨(he hcolon).1, .inr ⟨hends, (he hcolon).2⟩⟩⟩
  · obtain ⟨hrest, hends, he⟩ := ih.conditional htail h'
    exact ⟨hrest, fun hcolon => ⟨(he hcolon).1, .inr ⟨hends, (he hcolon).2⟩⟩⟩

omit ih

/-- Every part of the parser, at any amount of fuel. -/
theorem roundTrips (fuel : Nat) : RoundTrips fuel := by
  induction fuel with
  | zero =>
    constructor <;> intros <;> rename_i h <;>
      simp [expr, infixTail, operand, postfixTail, atom, signed, lambda, conditional, exprs,
        recordFields, statements] at h
  | succ fuel ih =>
    exact {
      expr := recovers_expr ih
      infixTail := recovers_infixTail ih
      operand := recovers_operand ih
      postfixTail := recovers_postfixTail ih
      atom := recovers_atom ih
      signed := recovers_signed ih
      lambda := recovers_lambda ih
      conditional := recovers_conditional ih
      exprs := recoversAll_exprs ih
      recordFields := recoversAll_recordFields ih
      statements := recoversAll_statements ih }

/-- The statements of a readable program print into their tokens and are read back. -/
theorem stands_of_program (hts : Readable ts) (h : program ts = .ok es) :
    ∀ e ∈ es, Prints e ∧ Stands e := by
  obtain ⟨rest, hstatements⟩ := exists_statements_of_program h
  exact ((roundTrips _).statements (by rintro _ ⟨⟩) hts hstatements).2

/-- A text with the tokens of an expression that stands is parsed as this expression. -/
theorem exists_parseExpr_of_lexes {text : String} {d : Expr} (hlexes : Lexes text.toList d.tokens)
    (hstands : Stands d) : ∃ e', parseExpr text = .ok e' ∧ e'.Restores d := by
  obtain ⟨us, hlex, hus⟩ := exists_lexCode? hlexes
  obtain ⟨e', he', hgives⟩ := hstands false hus closes_nil
  rw [List.append_nil] at hgives
  obtain ⟨u, us, rfl, hu⟩ := exists_cons_of_opens d.opens_tokens hus
  have hprogram : program (u :: us) = .ok [e'] :=
    program_of_givesExpr (ne_newline_of_isSome hu) (ne_of_isSome hu rfl) hgives
  exact ⟨e', parseExpr_of_program hlex hprogram, he'⟩

/-- What prints into the tokens of an expression that stands is parsed as this expression. -/
theorem exists_parseExpr_of_tokens {d : Expr} (hprints : Prints e) (htokens : e.tokens = d.tokens)
    (hstands : Stands d) : ∃ e', parseExpr e.print = .ok e' ∧ e'.Restores d := by
  have hlexes : Lexes (e.print.toList ++ []) (e.tokens ++ []) :=
    hprints.lexes delimited_nil lexes_nil
  rw [List.append_nil, List.append_nil, htokens] at hlexes
  exact exists_parseExpr_of_lexes hlexes hstands

/-- An expression that prints into its tokens and stands is read back from its printed form. -/
theorem exists_parseExpr_print (hprints : Prints e) (hstands : Stands e) :
    ∃ e', parseExpr e.print = .ok e' ∧ e'.Restores e :=
  exists_parseExpr_of_tokens hprints rfl hstands

end Parser

/-! ### Printing and parsing -/

/-- A program is read back from print: if a source text without line breaks, floats and the name
`neg` is a program, then each statement of it is parsed from its printed form again, up to spans
and up to the parentheses that are printed around callees. -/
theorem parseExpr_print {source : String} {lexemes : List Lexeme} {stmts : List Expr}
    (hlex : lexCode? source = .ok lexemes)
    (hplain : ∀ t ∈ lexemes,
      t.token ≠ .newline ∧ (∀ x, t.token ≠ .float x) ∧ t.token ≠ .ident "neg")
    (hparse : parseProgram source = .ok stmts) :
    ∀ e ∈ stmts, ∃ e', parseExpr e.print = .ok e' ∧
      e'.unspanned = e.parenthesized.unspanned := by
  intro e he
  rw [parseProgram, hlex] at hparse
  obtain ⟨hprints, hstands⟩ := Parser.stands_of_program ⟨lexed_of_lexCode? hlex, hplain⟩ hparse e he
  exact Parser.exists_parseExpr_print hprints hstands

/-- A callee that is a call itself, and a record with a word of the language for a name. -/
theorem parseExpr_print_nested_call :
    ∃ e', parseExpr "(f(1))(-x) <- \x7b if: . \x7d" = .ok e' ∧ e'.unspanned = .assign
      (.call (.paren (.call (.sym "f" .nowhere) [.lit (.int 1) .nowhere] .nowhere) .nowhere)
        [.call (.sym "neg" .nowhere) [.sym "x" .nowhere] .nowhere] .nowhere)
      (.record [("if", .sym "." .nowhere)] .nowhere) .inner .nowhere := by
  have hscan : Scan.ofChars 0 "f(1)(-x) <- \x7bif:.,\x7d".toList = ⟨[⟨.ident "f", ⟨0, 1⟩, "f"⟩,
      ⟨.leftParen, ⟨1, 1⟩, "("⟩, ⟨.int 1, ⟨2, 1⟩, "1"⟩, ⟨.rightParen, ⟨3, 1⟩, ")"⟩,
      ⟨.leftParen, ⟨4, 1⟩, "("⟩, ⟨.minus, ⟨5, 1⟩, "-"⟩, ⟨.ident "x", ⟨6, 1⟩, "x"⟩,
      ⟨.rightParen, ⟨7, 1⟩, ")"⟩, ⟨.leftArrow, ⟨9, 2⟩, "<-"⟩, ⟨.leftBrace, ⟨12, 1⟩, "\x7b"⟩,
      ⟨.ident "if", ⟨13, 2⟩, "if"⟩, ⟨.colon, ⟨15, 1⟩, ":"⟩, ⟨.dot, ⟨16, 1⟩, "."⟩,
      ⟨.comma, ⟨17, 1⟩, ","⟩, ⟨.rightBrace, ⟨18, 1⟩, "\x7d"⟩], none⟩ := by
    decide +kernel
  have hlex := lexCode?_of_ofChars hscan
  have hparse : parseProgram "f(1)(-x) <- \x7bif:.,\x7d" = .ok [.assign
      (.call (.call (.sym "f" ⟨0, 1⟩) [.lit (.int 1) ⟨2, 1⟩] ⟨0, 4⟩)
        [.call (.sym "neg" ⟨5, 1⟩) [.sym "x" ⟨6, 1⟩] ⟨5, 2⟩] ⟨0, 8⟩)
      (.record [("if", .sym "." ⟨16, 1⟩)] ⟨12, 7⟩) .inner ⟨0, 19⟩] := by
    rw [parseProgram, hlex]
    rfl
  have h := parseExpr_print hlex (by simp) hparse _ (List.mem_singleton.2 rfl)
  exact h

end PipeLang
