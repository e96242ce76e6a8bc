import PipeLang.Proofs.Fitting

/-!
# Trees that fit are read back

Between what may stand before it and what may follow it, the tokens of a tree that fits are read as
this tree again (`Expr.Fits.rereads`).  So it is parsed from its printed form, and from that of any
other tree with the same tokens (`Expr.Fits.exists_parseExpr`).
-/

namespace PipeLang

namespace Parser

variable {free : Bool} {least n : Nat} {e e' f lhs rhs cond yes no : Expr} {es : List Expr}
  {s s' : Span} {t u : Lexeme} {op : InfixOp} {ts us rest after : List Lexeme} {sign : String}

/-- Before whatever it takes nothing of, and where no looser operator is asked for, the parser reads
the expression again as an operand. -/
def Rereads (e : Expr) : Prop :=
  ∀ (free : Bool) {least us rest}, us.map Lexeme.token = e.tokens → least ≤ e.power →
    EndsOperand rest → StopsBefore e rest →
    ∃ e' : Expr, e'.Restores e ∧
      ∀ r, GivesInfix free least e' rest r → GivesExpr free least (us ++ rest) r

/-! ### Where nothing more is taken -/

theorem Below.givesInfix (h : Below least rest) (hends : EndsOperand rest) :
    GivesInfix free least e rest (.ok (e, rest)) :=
  givesInfix_stop hends.ahead_eq h

/-- No operator binds looser than an assignment. -/
theorem Below.of_assign (h : Below Power.assign rest) : Below n rest := by
  intro t ht op hop
  have hlt := h t ht op hop
  have hle := (InfixOp.bounds_of_ofToken? hop).1
  omega

theorem Below.of_alike (h : Below n after) (hrest : Alike after rest) : Below n rest :=
  hrest.forall_head (p := fun t => ∀ op, InfixOp.ofToken? t = some op → op.left < n)
    (fun t ht op hop => by rw [ofToken?_of_isCloser ht] at hop; cases hop) h

theorem StopsBefore.of_alike (h : StopsBefore e after) (hrest : Alike after rest) :
    StopsBefore e rest where
  operator := h.operator.of_alike hrest
  alternative helse := hrest.forall_head (p := fun t => t ≠ .elseWord)
    (by intro t ht; rintro rfl; cases ht) (h.alternative helse)

/-- Operators that are not taken leave the expression as it is. -/
theorem Rereads.rereadsExpr (h : Rereads e) (hleast : least ≤ e.power) (hends : EndsOperand after)
    (hstops : StopsBefore e after) (hbelow : Below least after) : RereadsExpr least after e := by
  intro free us rest hus hrest
  obtain ⟨e', he', hgives⟩ := h free hus hleast (hends.of_alike hrest) (hstops.of_alike hrest)
  exact ⟨e', he', hgives _ ((hbelow.of_alike hrest).givesInfix (hends.of_alike hrest))⟩

theorem Rereads.stands (h : Rereads e) : Stands e := by
  intro free us rest hus hrest
  obtain ⟨e', he', hgives⟩ := h free hus (Nat.zero_le _) hrest.endsOperand (hrest.stopsBefore e)
  exact ⟨e', he', hgives _ hrest.givesInfix⟩

/-! ### One lemma for each kind of expression -/

theorem IsClosed.rereads (h : IsClosed e) : Rereads e := by
  intro free least us rest hus _ hends _
  obtain ⟨e', he', hgives⟩ := h free rest hus
  exact ⟨e', he', fun r hr => givesExpr (hgives _ hends.givesPostfix) hr⟩

theorem rereads_of_rereadsAtom
    (h : ∀ {rest}, EndsOperand rest → StopsBefore e rest → RereadsAtom rest e) : Rereads e := by
  intro free least us rest hus _ hends hstops
  obtain ⟨e', he', hgives⟩ := h hends hstops free hus (.inl rfl)
  exact ⟨e', he', fun r hr => givesExpr (givesOperand hgives hends.givesPostfix) hr⟩

/-- The left operand does not take the operator, and the right one is as tight as it asks. -/
theorem rereads_apply {t : Token} (ht : InfixOp.ofToken? t = some op)
    (hspecial : ∀ name, t = .special name → IsSpecial name) (hlhs : Rereads lhs)
    (hrhs : Rereads rhs) (hleft : op.left < lhs.reach) (hright : op.right ≤ rhs.power) :
    Rereads (op.apply s lhs rhs) := by
  obtain ⟨hpower, hreach, hend, -⟩ := InfixOp.facts_of_apply ht hspecial s lhs rhs
  obtain ⟨-, hsign, -, -⟩ := InfixOp.bounds_of_ofToken? ht
  intro free least us rest hus hleast hends hstops
  rw [tokens_apply ht hspecial] at hus
  obtain ⟨us₁, us₂, rfl, h₁, h₂⟩ := List.map_eq_append_iff.1 hus
  obtain ⟨u, us₃, rfl, hu, h₃⟩ := List.map_eq_cons_iff.1 h₂
  have hop : InfixOp.ofToken? u.token = some op := hu ▸ ht
  rw [hpower] at hleast
  -- the left operand ends before the operator
  have hmid : EndsOperand (u :: (us₃ ++ rest)) := by
    rintro v ⟨⟩
    refine ⟨ne_newline_of_ofToken? hop, ?_, ?_⟩ <;>
      · intro heq
        rw [heq] at hop
        cases hop
  have hbefore : StopsBefore lhs (u :: (us₃ ++ rest)) := by
    refine ⟨?_, fun _ => ?_⟩
    · rintro v ⟨⟩ op' hop'
      rw [hop] at hop'
      cases hop'
      exact hleft
    · rintro v ⟨⟩ heq
      rw [heq] at hop
      cases hop
  obtain ⟨lhs', hlhs', hgives⟩ := hlhs free h₁
    (Nat.le_trans hleast (Expr.le_power_of_lt_reach hleft hsign)) hmid hbefore
  -- the right one ends where the whole does
  have hbelow : Below op.right rest :=
    fun v hv op' hop' => Nat.lt_of_lt_of_le (hstops.operator v hv op' hop')
      (hreach ▸ Nat.min_le_left _ _)
  have hrest : StopsBefore rhs rest :=
    ⟨fun v hv op' hop' => Nat.lt_of_lt_of_le (hstops.operator v hv op' hop')
      (hreach ▸ Nat.min_le_right _ _), fun helse => hstops.alternative (hend ▸ helse)⟩
  obtain ⟨rhs', hrhs', hgives'⟩ := (hrhs.rereadsExpr hright hends hrest hbelow).skipNewlines free
    h₃ (.inl rfl)
  refine ⟨op.apply u.span lhs' rhs', restores_apply hop hlhs' hrhs' u.span, fun r hr => ?_⟩
  rw [List.append_assoc, List.cons_append]
  exact hgives r (givesInfix_cons (ahead_cons free (hmid u rfl).1) hop hleast hgives' hr)

theorem rereads_sign {t : Token} (ht : Start.ofToken? t = some (.sign sign)) (he : Rereads e)
    (hpower : Power.sign ≤ e.power) : Rereads (.call (.sym sign s') [e] s) := by
  obtain ⟨-, hreach, hend, -⟩ := Expr.facts_of_sign ht e s s'
  refine rereads_of_rereadsAtom fun {rest} hends hstops => ?_
  have hstops' : StopsBefore e rest :=
    ⟨hreach ▸ hstops.operator, fun helse => hstops.alternative (hend ▸ helse)⟩
  have hsign : Start.ofToken? (Lexeme.mk t s "").token = some (.sign sign) := ht
  exact rereadsAtom_sign hsign (he.rereadsExpr hpower hends hstops' (below_sign _))

theorem rereads_lambda {params : List String} (he : Rereads e) : Rereads (.lambda params e s) :=
  rereads_of_rereadsAtom fun hends hstops => rereadsAtom_lambda
    (he.rereadsExpr e.assign_le_power hends ⟨hstops.operator.of_assign, hstops.alternative⟩
      hstops.operator)

theorem rereads_ifThen (hcond : Rereads cond) (hyes : Rereads yes) :
    Rereads (.ifThen cond yes s) := by
  refine rereads_of_rereadsAtom fun hends hstops => ?_
  have helse := hstops.alternative rfl
  exact rereadsAtom_ifThen hcond.stands (hyes.rereadsExpr yes.assign_le_power hends
    ⟨hstops.operator.of_assign, fun _ => helse⟩ hstops.operator)
    fun t ht => ⟨(hends t ht).1, helse t ht⟩

/-- The alternative does not belong to a conditional at the end of the first branch. -/
theorem rereads_ifElse (hcond : Rereads cond) (hyes : Rereads yes) (hno : Rereads no)
    (hend : yes.endsThen = false) : Rereads (.ifElse cond yes no s) := by
  refine rereads_of_rereadsAtom fun hends hstops => ?_
  have hno' := hno.rereadsExpr no.assign_le_power hends
    ⟨hstops.operator.of_assign, hstops.alternative⟩ hstops.operator
  have hbelow : ∀ {n}, Below n [⟨.elseWord, s, ""⟩] := below_of_none rfl []
  have hends' : EndsOperand [⟨.elseWord, s, ""⟩] := by
    rintro t ⟨⟩
    exact ⟨by simp, by simp, by simp⟩
  exact rereadsAtom_ifElse hcond.stands rfl (hyes.rereadsExpr yes.assign_le_power hends'
    ⟨hbelow, fun helse => absurd (hend ▸ helse) (by simp)⟩ hbelow) hno'

end Parser

/-! ### Trees that fit -/

namespace Expr

variable {d e : Expr}

/-- Trees that fit are read back, and those that take arguments whatever follows them. -/
theorem Fits.rereads (h : e.Fits) :
    Parser.Rereads e ∧ (e.takesPostfix = true → Parser.IsClosed e) := by
  -- what ends with a token of its own takes arguments and fields, anything else does not
  have hclosed : ∀ {e : Expr}, Parser.IsClosed e →
      Parser.Rereads e ∧ (e.takesPostfix = true → Parser.IsClosed e) :=
    fun h => ⟨h.rereads, fun _ => h⟩
  have hopen : ∀ {e : Expr}, Parser.Rereads e → e.takesPostfix = false →
      Parser.Rereads e ∧ (e.takesPostfix = true → Parser.IsClosed e) :=
    fun h hfalse => ⟨h, fun htrue => absurd (htrue ▸ hfalse) (by decide)⟩
  induction h with
  | lit => exact hclosed (Parser.isClosed_lit _ _)
  | sym => exact hclosed (Parser.isClosed_sym _ _)
  | operator ht hspecial he _ _ hleft hright ihl ihr =>
    subst he
    exact hopen (Parser.rereads_apply ht hspecial ihl.1 ihr.1 hleft hright)
      (InfixOp.facts_of_apply ht hspecial _ _ _).2.2.2
  | sign ht _ hpower ih =>
    exact hopen (Parser.rereads_sign ht ih.1 hpower) (facts_of_sign ht _ _ _).2.2.2
  | call hplain hcallee _ _ ihf ihes =>
    exact hclosed (Parser.isClosed_call hplain (ihf.2 hcallee) fun e he => (ihes e he).1.stands)
  | paren _ ih => exact hclosed (Parser.isClosed_paren ih.1.stands)
  | block _ ih => exact hclosed (Parser.isClosed_block fun e he => (ih e he).1.stands)
  | list _ ih => exact hclosed (Parser.isClosed_list fun e he => (ih e he).1.stands)
  | record hne _ _ ih =>
    exact hclosed (Parser.isClosed_record (fun f hf => (ih f hf).1.stands) hne)
  | field _ htarget _ ih => exact hclosed (Parser.isClosed_field (ih.2 htarget))
  | lambda _ _ ih => exact hopen (Parser.rereads_lambda ih.1) rfl
  | ifThen _ _ ihc ihy => exact hopen (Parser.rereads_ifThen ihc.1 ihy.1) rfl
  | ifElse _ _ _ hend ihc ihy ihn =>
    exact hopen (Parser.rereads_ifElse ihc.1 ihy.1 ihn.1 hend) rfl

/-- A tree that fits is parsed from whatever prints into its tokens. -/
theorem Fits.exists_parseExpr (h : d.Fits) (hprints : Prints e) (htokens : e.tokens = d.tokens) :
    ∃ e', parseExpr e.print = .ok e' ∧ e'.Restores d :=
  Parser.exists_parseExpr_of_tokens hprints htokens h.rereads.1.stands

end Expr

end PipeLang
