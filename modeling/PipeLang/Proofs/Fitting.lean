import PipeLang.Proofs.Operands
import PipeLang.Proofs.Spans

/-!
# What the parser gives fits

The parser asks for operands of a certain power and stops at the first operator that binds looser,
so every expression that it gives for readable lexemes fits (`Parser.fits_of_program`).  This is
shown along its recursion, with one statement for each of its parts (`Parser.Fitting`), by induction
on the fuel.  With an expression goes what may follow it: no operator within its reach, and no
alternative that would belong to a conditional at its end (`Parser.StopsBefore`).
-/

namespace PipeLang

namespace Parser

/-- Operators that follow bind looser than this power. -/
def Below (least : Nat) (rest : List Lexeme) : Prop :=
  ∀ t ∈ rest.head?, ∀ op, InfixOp.ofToken? t.token = some op → op.left < least

/-- The expression takes nothing of what follows it. -/
structure StopsBefore (e : Expr) (rest : List Lexeme) : Prop where
  operator : Below e.reach rest
  alternative : e.endsThen = true → ∀ t ∈ rest.head?, t.token ≠ .elseWord

/-- The expression ends before what is left, and it fits unless a colon follows. -/
def Yields (rest : List Lexeme) (e : Expr) : Prop := StopsBefore e rest ∧ (NoColon rest → e.Fits)

/-- What each part of the parser gives for readable lexemes, at one amount of fuel. -/
structure Fitting (fuel : Nat) : Prop where
  expr : ∀ {free least ts e rest}, Readable ts → least ≤ Power.sign →
    expr fuel free least ts = .ok (e, rest) →
    Yields rest e ∧ least ≤ e.power ∧ Below least rest
  infixTail : ∀ {free least lhs ts e rest}, Readable ts → Yields ts lhs → least ≤ lhs.power →
    infixTail fuel free least lhs ts = .ok (e, rest) →
    Yields rest e ∧ least ≤ e.power ∧ Below least rest
  operand : ∀ {free ts e rest}, Readable ts → operand fuel free ts = .ok (e, rest) →
    Yields rest e ∧ e.power = Power.sign
  postfixTail : ∀ {free lhs ts e rest}, Readable ts → (NoColon ts → lhs.Fits) →
    lhs.power = Power.sign → (lhs.takesPostfix = true ∨ EndsOperand ts ∧ StopsBefore lhs ts) →
    postfixTail fuel free lhs ts = .ok (e, rest) → Yields rest e ∧ e.power = Power.sign
  atom : ∀ {free ts e rest}, Readable ts → atom fuel free ts = .ok (e, rest) →
    (NoColon rest → e.Fits) ∧ e.power = Power.sign ∧
      (e.takesPostfix = true ∨ EndsOperand rest ∧ StopsBefore e rest)
  signed : ∀ {free op s ts e rest} {t : Lexeme}, Start.ofToken? t.token = some (.sign op) →
    Readable ts → signed fuel free op s ts = .ok (e, rest) → Yields rest e ∧ e.power = Power.sign
  lambda : ∀ {free s ts e rest}, Readable ts → lambda fuel free s ts = .ok (e, rest) →
    Yields rest e ∧ e.power = Power.sign
  conditional : ∀ {free s ts e rest}, Readable ts → conditional fuel free s ts = .ok (e, rest) →
    Yields rest e ∧ e.power = Power.sign
  exprs : ∀ {close ts es s rest}, close.isCloser = true → Readable ts →
    exprs fuel close ts = .ok (es, s, rest) → ∀ e ∈ es, e.Fits
  recordFields : ∀ {ts fields s rest}, Readable ts →
    recordFields fuel ts = .ok (fields, s, rest) → ∀ f ∈ fields, f.2.Fits
  statements : ∀ {close ts es rest}, (∀ t ∈ close, t.isCloser = true) → Readable ts →
    statements fuel close ts = .ok (es, rest) → ∀ e ∈ es, e.Fits

variable {free : Bool} {least fuel : Nat} {e lhs : Expr} {es : List Expr} {s : Span}
  {t : Lexeme} {op : InfixOp} {ts rest : List Lexeme} {name : String}

/-! ### What may follow -/

theorem below_sign (rest : List Lexeme) : Below Power.sign rest :=
  fun _ _ _ hop => (InfixOp.bounds_of_ofToken? hop).2.1

theorem below_of_none (h : InfixOp.ofToken? t.token = none) (rest : List Lexeme) :
    Below least (t :: rest) := by
  rintro u ⟨⟩ op hop
  rw [h] at hop
  cases hop

theorem stopsBefore_of_takesPostfix (h : e.takesPostfix = true) (rest : List Lexeme) :
    StopsBefore e rest := by
  obtain ⟨hreach, hend⟩ := Expr.facts_of_takesPostfix h
  refine ⟨?_, ?_⟩
  · rw [hreach]
    exact below_sign rest
  · rw [hend]
    rintro ⟨⟩

theorem Closes.below (h : Closes rest) : Below least rest := by
  intro t ht op hop
  rw [ofToken?_of_isCloser (h t ht)] at hop
  cases hop

theorem Closes.stopsBefore (h : Closes rest) (e : Expr) : StopsBefore e rest where
  operator := h.below
  alternative _ t ht heq := by
    have hcloser := h t ht
    rw [heq] at hcloser
    cases hcloser

/-- An operator with its operands ends where the right one ends, and no looser than it asks. -/
theorem stopsBefore_apply (ht : InfixOp.ofToken? t.token = some op)
    (hspecial : ∀ name, t.token = .special name → IsSpecial name) {rhs : Expr}
    (h : StopsBefore rhs rest) (hright : Below op.right rest) :
    StopsBefore (op.apply s lhs rhs) rest := by
  obtain ⟨-, hreach, hend, -⟩ := InfixOp.facts_of_apply ht hspecial s lhs rhs
  refine ⟨fun u hu op' hop => ?_, fun helse => h.alternative (hend ▸ helse)⟩
  rw [hreach]
  exact Nat.lt_min.2 ⟨hright u hu op' hop, h.operator u hu op' hop⟩

variable (ih : Fitting fuel)

include ih

/-! ### Operators -/

theorem fitting_expr (hts : Readable ts) (hleast : least ≤ Power.sign)
    (h : expr (fuel + 1) free least ts = .ok (e, rest)) :
    Yields rest e ∧ least ≤ e.power ∧ Below least rest := by
  rw [expr] at h
  obtain ⟨⟨lhs, mid⟩, ho, h⟩ := Outcome.bind_eq_ok_iff.1 h
  have hmid := ((roundTrips fuel).operand hts ho).1
  obtain ⟨hlhs, hpower⟩ := ih.operand hts ho
  exact ih.infixTail hmid hlhs (by rwa [hpower]) h

theorem fitting_infixTail (hts : Readable ts) (hlhs : Yields ts lhs) (hleast : least ≤ lhs.power)
    (h : infixTail (fuel + 1) free least lhs ts = .ok (e, rest)) :
    Yields rest e ∧ least ≤ e.power ∧ Below least rest := by
  rw [infixTail, hts.ahead_eq] at h
  split at h
  · cases h
    exact ⟨hlhs, hleast, Closes.below closes_nil⟩
  · next t tail =>
    split at h
    · next hop =>
      cases h
      exact ⟨hlhs, hleast, below_of_none hop tail⟩
    · next op hop =>
      split at h
      · next hlt =>
        cases h
        refine ⟨hlhs, hleast, ?_⟩
        rintro u ⟨⟩ op' hop'
        rw [hop] at hop'
        cases hop'
        exact hlt
      · next hle =>
        -- the operator is taken, and what it builds goes on as an operand
        obtain ⟨⟨rhs, mid⟩, he, h⟩ := Outcome.bind_eq_ok_iff.1 h
        have hspecial : ∀ name, t.token = .special name → IsSpecial name :=
          fun name hname => hts.isSpecial hname
        have hcolon : NoColon (t :: tail) :=
          noColon_cons rfl (by rintro heq; rw [heq] at hop; cases hop) _
        obtain ⟨-, -, -, hsign⟩ := InfixOp.bounds_of_ofToken? hop
        rw [hts.tail.skipNewlines_eq] at he
        have hmid := ((roundTrips fuel).expr hts.tail he).1
        obtain ⟨hrhs, hright, hbelow⟩ := ih.expr hts.tail hsign he
        have happly : Yields mid (op.apply t.span lhs rhs) :=
          ⟨stopsBefore_apply hop hspecial hrhs.1 hbelow, fun hmid => .operator hop hspecial rfl
            (hlhs.2 hcolon) (hrhs.2 hmid) (hlhs.1.operator t rfl op hop) hright⟩
        obtain ⟨hpower, -⟩ := InfixOp.facts_of_apply hop hspecial t.span lhs rhs
        exact ih.infixTail hmid happly (hpower ▸ Nat.le_of_not_lt hle) h

/-! ### Arguments and fields -/

theorem fitting_operand (hts : Readable ts) (h : operand (fuel + 1) free ts = .ok (e, rest)) :
    Yields rest e ∧ e.power = Power.sign := by
  rw [operand] at h
  obtain ⟨⟨lhs, mid⟩, ha, h⟩ := Outcome.bind_eq_ok_iff.1 h
  have hmid := ((roundTrips fuel).atom hts ha).1
  obtain ⟨hlhs, hpower, hend⟩ := ih.atom hts ha
  exact ih.postfixTail hmid hlhs hpower hend h

theorem fitting_postfixTail (hts : Readable ts) (hlhs : NoColon ts → lhs.Fits)
    (hpower : lhs.power = Power.sign)
    (hend : lhs.takesPostfix = true ∨ EndsOperand ts ∧ StopsBefore lhs ts)
    (h : postfixTail (fuel + 1) free lhs ts = .ok (e, rest)) :
    Yields rest e ∧ e.power = Power.sign := by
  have hstop : Yields ts lhs ∧ lhs.power = Power.sign :=
    ⟨⟨hend.elim (fun h => stopsBefore_of_takesPostfix h ts) And.right, hlhs⟩, hpower⟩
  cases ts with
  | nil =>
    rw [postfixTail] at h
    cases h
    exact hstop
  | cons t tail =>
    rw [postfixTail] at h
    split at h
    -- what arguments apply to is closed, as nothing else ends before a parenthesis
    · next ht =>
      obtain ⟨⟨args, s, mid⟩, hargs, happlied⟩ := Outcome.bind_eq_ok_iff.1 h
      have hmid := ((roundTrips fuel).exprs rfl hts.tail hargs).1
      have hfits := hlhs (noColon_cons ht (by simp) tail)
      have hclosed := hend.resolve_right fun hopen => (hopen.1 t rfl).2.1 ht
      obtain ⟨hcall, -, -, hpostfix⟩ := Expr.facts_of_call hfits.isPlainCallee args
        (lhs.span.join s)
      exact ih.postfixTail hmid (fun _ => .call hfits.isPlainCallee hclosed hfits
        (ih.exprs rfl hts.tail hargs)) hcall (.inl hpostfix) happlied
    -- likewise for a field
    · next ht =>
      obtain ⟨⟨name, s, mid⟩, hname, happlied⟩ := Outcome.bind_eq_ok_iff.1 h
      have hfits := hlhs (noColon_cons ht (by simp) tail)
      have hclosed := hend.resolve_right fun hopen => (hopen.1 t rfl).2.2 ht
      obtain ⟨u, rfl, hu⟩ := hts.tail.eq_cons_of_expectName hname
      exact ih.postfixTail hts.tail.tail
        (fun hcolon => .field (hts.tail.isIdentifier hu hcolon) hclosed hfits) rfl (.inl rfl)
        happlied
    · cases h
      exact hstop

/-! ### Signs, functions and conditionals -/

theorem fitting_signed {sign : String} (ht : Start.ofToken? t.token = some (.sign sign))
    (hts : Readable ts) (h : signed (fuel + 1) free sign s ts = .ok (e, rest)) :
    Yields rest e ∧ e.power = Power.sign := by
  rw [signed] at h
  obtain ⟨⟨inner, after⟩, he, h⟩ := Outcome.bind_eq_ok_iff.1 h
  cases h
  obtain ⟨⟨hends, hfits⟩, hinner, -⟩ := ih.expr hts (Nat.le_refl _) he
  obtain ⟨hpower, hreach, hthen, -⟩ := Expr.facts_of_sign ht inner (s.join inner.span) s
  refine ⟨⟨⟨?_, fun h => hends.alternative (hthen ▸ h)⟩, fun hcolon => .sign ht (hfits hcolon)
    hinner⟩, hpower⟩
  rw [hreach]
  exact hends.operator

theorem fitting_lambda (hts : Readable ts) (h : lambda (fuel + 1) free s ts = .ok (e, rest)) :
    Yields rest e ∧ e.power = Power.sign := by
  rw [lambda] at h
  obtain ⟨⟨t, mid⟩, hp, h⟩ := Outcome.bind_eq_ok_iff.1 h
  dsimp only at h
  obtain ⟨⟨params, after⟩, hn, h⟩ := Outcome.bind_eq_ok_iff.1 h
  dsimp only at h
  obtain ⟨⟨body, tail⟩, he, h⟩ := Outcome.bind_eq_ok_iff.1 h
  cases h
  obtain ⟨rfl, -⟩ := hts.eq_cons_of_expect hp
  obtain ⟨hafter, hparams⟩ := hts.tail.of_paramNames hn
  rw [hafter.skipNewlines_eq] at he
  obtain ⟨⟨hends, hfits⟩, -, hbelow⟩ := ih.expr hafter (by decide) he
  exact ⟨⟨⟨hbelow, hends.alternative⟩, fun hcolon => .lambda hparams (hfits hcolon)⟩, rfl⟩

theorem fitting_conditional (hts : Readable ts)
    (h : conditional (fuel + 1) free s ts = .ok (e, rest)) :
    Yields rest e ∧ e.power = Power.sign := by
  rw [conditional] at h
  obtain ⟨⟨t, mid⟩, hp, h₁⟩ := Outcome.bind_eq_ok_iff.1 h
  obtain ⟨⟨cond, afterCond⟩, hc, h₂⟩ := Outcome.bind_eq_ok_iff.1 h₁
  obtain ⟨⟨u, body⟩, hq, h₃⟩ := Outcome.bind_eq_ok_iff.1 h₂
  obtain ⟨⟨yes, afterYes⟩, hy, h₄⟩ := Outcome.bind_eq_ok_iff.1 h₃
  clear h h₁ h₂ h₃
  dsimp only at hc hq hy h₄
  obtain ⟨rfl, -⟩ := hts.eq_cons_of_expect hp
  have hmid := ((roundTrips fuel).expr hts.tail hc).1
  obtain ⟨rfl, hu⟩ := hmid.eq_cons_of_expect hq
  have hcond : cond.Fits :=
    (ih.expr hts.tail (Nat.zero_le _) hc).1.2 (noColon_cons hu (by simp) body)
  rw [hmid.tail.skipNewlines_eq] at hy
  have hafter := ((roundTrips fuel).expr hmid.tail hy).1
  obtain ⟨⟨hends, hyes⟩, -, hbelow⟩ := ih.expr hmid.tail (by decide) hy
  rw [hafter.skipNewlines_eq] at h₄
  -- without an alternative
  have hthen : (∀ t ∈ afterYes.head?, t.token ≠ .elseWord) →
      Yields afterYes (.ifThen cond yes (s.join yes.span)) := fun helse =>
    ⟨⟨hbelow, fun _ => helse⟩, fun hcolon => .ifThen hcond (hyes hcolon)⟩
  split at h₄
  · next w tail =>
    split at h₄
    · next hw =>
      obtain ⟨⟨no, afterNo⟩, hn, h₅⟩ := Outcome.bind_eq_ok_iff.1 h₄
      cases h₅
      rw [hafter.tail.skipNewlines_eq] at hn
      obtain ⟨⟨hends', hno⟩, -, hbelow'⟩ := ih.expr hafter.tail (by decide) hn
      -- the alternative would belong to a conditional at the end of the first branch
      have hend : yes.endsThen = false :=
        Bool.eq_false_iff.2 fun hend => hends.alternative hend w rfl hw
      exact ⟨⟨⟨hbelow', hends'.alternative⟩, fun hcolon =>
        .ifElse hcond (hyes (noColon_cons hw (by simp) tail)) (hno hcolon) hend⟩, rfl⟩
    · next hw =>
      cases h₄
      refine ⟨hthen ?_, rfl⟩
      rintro v ⟨⟩
      exact hw
  · cases h₄
    exact ⟨hthen (by simp), rfl⟩

/-! ### Lists -/

/-- Items are followed by a comma or by what closes the list, and so by no colon. -/
theorem fitting_exprs {close : Token} (hclose : close.isCloser = true) (hts : Readable ts)
    (h : exprs (fuel + 1) close ts = .ok (es, s, rest)) : ∀ e ∈ es, e.Fits := by
  rw [exprs, hts.skipNewlines_eq] at h
  split at h
  · cases h
  · next t tail =>
    split at h
    · cases h
      simp
    · obtain ⟨⟨first, mid⟩, he, h₁⟩ := Outcome.bind_eq_ok_iff.1 h
      obtain ⟨⟨sep, after⟩, hn, h₂⟩ := Outcome.bind_eq_ok_iff.1 h₁
      clear h h₁
      dsimp only at hn h₂
      have hmid := ((roundTrips fuel).expr hts he).1
      obtain rfl := hmid.eq_cons_of_next hn
      -- whether the item fits is known once it is known what follows
      have hfirst := (ih.expr hts (Nat.zero_le _) he).1.2
      split at h₂
      · next hsep =>
        cases h₂
        exact List.forall_mem_singleton.2
          (hfirst (Closes.noColon (closes_cons (hsep ▸ hclose) _)))
      · split at h₂
        · next hsep =>
          obtain ⟨⟨others, stop, last⟩, ho, h₃⟩ := Outcome.bind_eq_ok_iff.1 h₂
          cases h₃
          exact List.forall_mem_cons.2 ⟨hfirst (noColon_cons hsep (by simp) _),
            ih.exprs hclose hmid.tail ho⟩
        · cases h₂

/-- The values of fields are followed by a comma or by the closing brace, and so by no colon. -/
theorem fitting_recordFields {fields : List (String × Expr)} (hts : Readable ts)
    (h : recordFields (fuel + 1) ts = .ok (fields, s, rest)) : ∀ f ∈ fields, f.2.Fits := by
  rw [recordFields, hts.skipNewlines_eq] at h
  split at h
  · cases h
  · next t tail =>
    split at h
    · cases h
      simp
    · obtain ⟨⟨name, s', afterName⟩, hm, h₁⟩ := Outcome.bind_eq_ok_iff.1 h
      obtain ⟨⟨u, value⟩, hc, h₂⟩ := Outcome.bind_eq_ok_iff.1 h₁
      obtain ⟨⟨first, mid⟩, he, h₃⟩ := Outcome.bind_eq_ok_iff.1 h₂
      obtain ⟨⟨sep, after⟩, hn, h₄⟩ := Outcome.bind_eq_ok_iff.1 h₃
      clear h h₁ h₂ h₃
      dsimp only at hc he hn h₄
      obtain ⟨v, heq, -⟩ := hts.eq_cons_of_expectName hm
      obtain ⟨rfl, rfl⟩ := List.cons.inj heq
      obtain ⟨rfl, -⟩ := hts.tail.eq_cons_of_expect hc
      have hmid := ((roundTrips fuel).expr hts.tail.tail he).1
      obtain rfl := hmid.eq_cons_of_next hn
      have hfirst := (ih.expr hts.tail.tail (Nat.zero_le _) he).1.2
      split at h₄
      · next hsep =>
        cases h₄
        exact List.forall_mem_singleton.2 (hfirst (noColon_cons hsep (by simp) _))
      · split at h₄
        · next hsep =>
          obtain ⟨⟨others, stop, last⟩, ho, h₅⟩ := Outcome.bind_eq_ok_iff.1 h₄
          cases h₅
          exact List.forall_mem_cons.2 ⟨hfirst (noColon_cons hsep (by simp) _),
            ih.recordFields hmid.tail ho⟩
        · cases h₄

/-- Statements are followed by what separates them, or by nothing. -/
theorem fitting_statements {close : Option Token} (hclose : ∀ t ∈ close, t.isCloser = true)
    (hts : Readable ts) (h : statements (fuel + 1) close ts = .ok (es, rest)) :
    ∀ e ∈ es, e.Fits := by
  have hskip : Readable (skipSeparators ts) := hts.dropWhile _
  rw [statements] at h
  split at h
  · cases h
    simp
  · next t tail ht =>
    rw [ht] at hskip
    split at h
    · cases h
      simp
    · obtain ⟨⟨first, mid⟩, he, h⟩ := Outcome.bind_eq_ok_iff.1 h
      dsimp only at h
      have hmid := ((roundTrips fuel).expr hskip he).1
      have hfirst := (ih.expr hskip (Nat.zero_le _) he).1.2
      split at h
      · cases h
        exact List.forall_mem_singleton.2 (hfirst (Closes.noColon closes_nil))
      · next u after =>
        split at h
        · next hu =>
          obtain ⟨⟨others, last⟩, ho, h⟩ := Outcome.bind_eq_ok_iff.1 h
          cases h
          -- what ends a statement continues no expression
          have hcloser := isCloser_of_endsStatement hclose hmid.head.2.1 hu
          exact List.forall_mem_cons.2 ⟨hfirst (Closes.noColon (closes_cons hcloser _)),
            ih.statements hclose hmid ho⟩
        · cases h

/-! ### Atoms -/

theorem fitting_atom (hts : Readable ts) (h : atom (fuel + 1) free ts = .ok (e, rest)) :
    (NoColon rest → e.Fits) ∧ e.power = Power.sign ∧
      (e.takesPostfix = true ∨ EndsOperand rest ∧ StopsBefore e rest) := by
  rw [atom] at h
  obtain ⟨⟨t, tail⟩, hn, h'⟩ := Outcome.bind_eq_ok_iff.1 h
  clear h
  obtain rfl := hts.eq_cons_of_next hn
  have hspelled := hts.head.1
  have hplain := hts.head.2
  have htail := hts.tail
  dsimp only at h'
  split at h'
  · cases h'
  -- literals and symbols
  · next literal hstart =>
    cases h'
    have htoken := token_of_literal hstart
    refine ⟨fun _ => .lit ?_ ?_, rfl, .inl rfl⟩
    · rintro x rfl
      exact hplain.2.1 x htoken.symm
    · rintro n rfl
      rw [← htoken] at hspelled
      exact hspelled
  · next name hstart =>
    cases h'
    refine ⟨fun hcolon => ?_, rfl, .inl rfl⟩
    rcases token_of_symbol hstart with ht | rfl
    · exact .sym (.inr (hts.isIdentifier ht hcolon)) fun hneg => hplain.2.2 (hneg ▸ ht)
    · exact .sym (.inl rfl) (by decide)
  -- a sign takes all that it can, so only what ends an operand follows
  · next sign hstart =>
    have hends := ((roundTrips fuel).signed hstart htail h').2.1
    obtain ⟨⟨hstops, hfits⟩, hpower⟩ := ih.signed hstart htail h'
    exact ⟨hfits, hpower, .inr ⟨hends, hstops⟩⟩
  -- whatever stands between brackets is closed
  · obtain ⟨⟨inner, mid⟩, he, h₁⟩ := Outcome.bind_eq_ok_iff.1 h'
    obtain ⟨⟨u, after⟩, hc, h₂⟩ := Outcome.bind_eq_ok_iff.1 h₁
    cases h₂
    have hmid := ((roundTrips fuel).expr htail he).1
    obtain ⟨rfl, hu⟩ := hmid.eq_cons_of_expect hc
    have hinner := (ih.expr htail (Nat.zero_le _) he).1.2 (noColon_cons hu (by simp) _)
    exact ⟨fun _ => .paren hinner, rfl, .inl rfl⟩
  · obtain ⟨⟨items, s', after⟩, he, h₁⟩ := Outcome.bind_eq_ok_iff.1 h'
    cases h₁
    exact ⟨fun _ => .list (ih.exprs rfl htail he), rfl, .inl rfl⟩
  · split at h'
    · next hrecord =>
      obtain ⟨⟨fields, s', after⟩, hf, h₁⟩ := Outcome.bind_eq_ok_iff.1 h'
      cases h₁
      have hnames := ((roundTrips fuel).recordFields htail hf).2
      exact ⟨fun _ => .record (ne_nil_of_startsRecord hrecord hf) hnames
        (ih.recordFields htail hf), rfl, .inl rfl⟩
    · obtain ⟨⟨stmts, mid⟩, he, h₁⟩ := Outcome.bind_eq_ok_iff.1 h'
      obtain ⟨⟨u, after⟩, hc, h₂⟩ := Outcome.bind_eq_ok_iff.1 h₁
      cases h₂
      exact ⟨fun _ => .block (ih.statements (by rintro t ⟨⟩; rfl) htail he), rfl, .inl rfl⟩
  -- functions and conditionals are like signs
  · have hends := ((roundTrips fuel).lambda htail h').2.1
    obtain ⟨⟨hstops, hfits⟩, hpower⟩ := ih.lambda htail h'
    exact ⟨hfits, hpower, .inr ⟨hends, hstops⟩⟩
  · have hends := ((roundTrips fuel).conditional htail h').2.1
    obtain ⟨⟨hstops, hfits⟩, hpower⟩ := ih.conditional htail h'
    exact ⟨hfits, hpower, .inr ⟨hends, hstops⟩⟩

omit ih

/-- Every part of the parser, at any amount of fuel. -/
theorem fitting (fuel : Nat) : Fitting fuel := by
  induction fuel with
  | zero =>
    constructor <;> intros <;>
      simp [expr, infixTail, operand, postfixTail, atom, signed, lambda, conditional, exprs,
        recordFields, statements] at *
  | succ fuel ih =>
    exact {
      expr := fitting_expr ih
      infixTail := fitting_infixTail ih
      operand := fitting_operand ih
      postfixTail := fitting_postfixTail ih
      atom := fitting_atom ih
      signed := fitting_signed ih
      lambda := fitting_lambda ih
      conditional := fitting_conditional ih
      exprs := fitting_exprs ih
      recordFields := fitting_recordFields ih
      statements := fitting_statements ih }

/-- The statements of a readable program fit. -/
theorem fits_of_program (hts : Readable ts) (h : program ts = .ok es) : ∀ e ∈ es, e.Fits := by
  obtain ⟨rest, hstatements⟩ := exists_statements_of_program h
  exact (fitting _).statements (by rintro _ ⟨⟩) hts hstatements

end Parser

/-! ### Parts of trees that fit -/

namespace Expr

variable {d e : Expr}

/-- The children of a tree that fits fit as well, but for the symbols of operators and signs. -/
theorem Fits.of_child (h : e.Fits) (hd : d ∈ e.children) : d.Fits ∨ ∃ name s, d = .sym name s := by
  cases h with
  | lit | sym => cases hd
  -- the symbol of an operator is a child too, but need not fit
  | operator _ _ he hlhs hrhs =>
    subst he
    unfold InfixOp.apply at hd
    split at hd
    all_goals simp only [children, parts, List.mem_cons, List.not_mem_nil, or_false] at hd
    · rcases hd with rfl | rfl | rfl
      · exact .inr ⟨_, _, rfl⟩
      · exact .inl hlhs
      · exact .inl hrhs
    · rcases hd with rfl | rfl
      · exact .inl hlhs
      · exact .inl hrhs
  | sign _ he =>
    rcases List.mem_cons.1 hd with rfl | hd
    · exact .inr ⟨_, _, rfl⟩
    · exact .inl (List.mem_singleton.1 hd ▸ he)
  | call _ _ hf hes =>
    rcases List.mem_cons.1 hd with rfl | hd
    · exact .inl hf
    · exact .inl (hes d hd)
  | paren he | field _ _ he | lambda _ he => exact .inl (List.mem_singleton.1 hd ▸ he)
  | block hes | list hes => exact .inl (hes d hd)
  | record _ _ hfields =>
    obtain ⟨f, hf, rfl⟩ := List.mem_map.1 hd
    exact .inl (hfields f hf)
  | ifThen hcond hyes =>
    simp only [children, parts, List.mem_cons, List.not_mem_nil, or_false] at hd
    rcases hd with rfl | rfl
    · exact .inl hcond
    · exact .inl hyes
  | ifElse hcond hyes hno =>
    simp only [children, parts, List.mem_cons, List.not_mem_nil, or_false] at hd
    rcases hd with rfl | rfl | rfl
    · exact .inl hcond
    · exact .inl hyes
    · exact .inl hno

/-- Whatever occurs in a tree that fits does, but for the symbols of operators and signs. -/
theorem Fits.of_occurs (h : e.Fits) (hd : Occurs d e) : d.Fits ∨ ∃ name s, d = .sym name s := by
  induction hd with
  | self => exact .inl h
  | child hchild hoccurs ih =>
    rcases h.of_child hchild with hfits | ⟨name, s, rfl⟩
    · exact ih hfits
    · cases hoccurs with
      | self => exact .inr ⟨name, s, rfl⟩
      | child hnone => cases hnone

/-- The arguments of a call that fits do, those of operators and signs included. -/
theorem Fits.of_mem_args {f : Expr} {args : List Expr} {s : Span} (h : (Expr.call f args s).Fits)
    (hd : d ∈ args) : d.Fits := by
  generalize he : Expr.call f args s = e at h
  cases h with
  | operator _ _ happly hlhs hrhs =>
    rw [happly, InfixOp.apply] at he
    split at he
    · cases he
      rcases List.mem_cons.1 hd with rfl | hd
      · exact hlhs
      · exact List.mem_singleton.1 hd ▸ hrhs
    · cases he
  | sign _ hinner =>
    cases he
    exact List.mem_singleton.1 hd ▸ hinner
  | call _ _ _ hes =>
    cases he
    exact hes d hd
  | _ => cases he

end Expr

end PipeLang
