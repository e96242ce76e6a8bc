import PipeLang.Proofs.Operands

/-!
# What is written before or after an expression

Something that is written before an expression without parentheses goes to the first operand only
that binds tightly enough (`Expr.headed`), and something after it to the last operand that takes it
(`Expr.tailed`).  What is added need not be known: if it builds trees that fit where it is, so does
putting it there, and the tokens are those of the expression with those that are added
(`Expr.isHeaded_headed`, `Expr.Tails.isTailed`).
-/

namespace PipeLang

namespace Expr

/-- The expression that is read where `wrap` adds something before this one that takes no operator
looser than `least`. -/
def headed (wrap : Expr → Expr) (least : Nat) : Expr → Expr
  | call f [lhs, rhs] s =>
    if least ≤ (call f [lhs, rhs] s).power then wrap (call f [lhs, rhs] s)
    else call f [lhs.headed wrap least, rhs] ((lhs.headed wrap least).span.join rhs.span)
  | assign target value scope s =>
    if least ≤ (assign target value scope s).power then wrap (assign target value scope s)
    else assign (target.headed wrap least) value scope
      ((target.headed wrap least).span.join value.span)
  | e => wrap e

/-- The expression that is read where `wrap` adds something after this one, which is taken by the
last operand for which `stops` holds. -/
def tailed (wrap : Expr → Expr) (stops : Expr → Bool) : Expr → Expr
  | call f [operand] s =>
    if stops (call f [operand] s) then wrap (call f [operand] s)
    else call f [operand.tailed wrap stops] s
  | call f [lhs, rhs] s =>
    if stops (call f [lhs, rhs] s) then wrap (call f [lhs, rhs] s)
    else call f [lhs, rhs.tailed wrap stops] (lhs.span.join (rhs.tailed wrap stops).span)
  | assign target value scope s =>
    if stops (assign target value scope s) then wrap (assign target value scope s)
    else assign target (value.tailed wrap stops) scope
      (target.span.join (value.tailed wrap stops).span)
  | lambda params body s =>
    if stops (lambda params body s) then wrap (lambda params body s)
    else lambda params (body.tailed wrap stops) s
  | ifThen cond yes s =>
    if stops (ifThen cond yes s) then wrap (ifThen cond yes s)
    else ifThen cond (yes.tailed wrap stops) s
  | ifElse cond yes no s =>
    if stops (ifElse cond yes no s) then wrap (ifElse cond yes no s)
    else ifElse cond yes (no.tailed wrap stops) s
  | e => wrap e

variable {wrap : Expr → Expr} {least : Nat} {stops : Expr → Bool} {e lhs rhs : Expr}
  {s s' : Span} {t : Token} {op : InfixOp} {added : List Token} {name : String}

/-! ### The two ends -/

theorem headed_of_le (h : least ≤ e.power) : e.headed wrap least = wrap e := by
  unfold headed
  split
  · exact if_pos h
  · exact if_pos h
  · rfl

theorem tailed_of_stops (h : stops e = true) : e.tailed wrap stops = wrap e := by
  unfold tailed
  split
  all_goals first | exact if_pos h | rfl

theorem tailed_apply (h : stops (op.apply s lhs rhs) = false) :
    (op.apply s lhs rhs).tailed wrap stops = op.apply s lhs (rhs.tailed wrap stops) := by
  unfold InfixOp.apply at h ⊢
  split at h
  · rw [tailed, if_neg (by simp [h])]
  · rw [tailed, if_neg (by simp [h])]

section Operators

variable (ht : InfixOp.ofToken? t = some op) (hspecial : ∀ name, t = .special name → IsSpecial name)

include ht hspecial

theorem headed_apply (h : op.left < least) :
    (op.apply s lhs rhs).headed wrap least = op.apply s (lhs.headed wrap least) rhs := by
  have hpower := (InfixOp.facts_of_apply ht hspecial s lhs rhs).1
  have hlt : ¬ least ≤ (op.apply s lhs rhs).power := hpower ▸ Nat.not_le.2 h
  unfold InfixOp.apply at hlt ⊢
  split at hlt
  · rw [headed, if_neg hlt]
  · rw [headed, if_neg hlt]

end Operators

/-! ### Before an expression -/

/-- The second expression fits and has more tokens before those of the first one, and operators that
are looser than `least` are taken as before. -/
structure IsHeaded (least : Nat) (added : List Token) (e e' : Expr) : Prop where
  fits : e'.Fits
  reach : ∀ {n}, n < least → n < e.reach → n < e'.reach
  tokens : e'.tokens = added ++ e.tokens

/-- Adding something before an expression that fits gives one that fits, if it does so for those
that take no operator looser than `least`. -/
theorem isHeaded_headed (hleast : least ≤ Power.sign)
    (h : ∀ {e : Expr}, e.Fits → least ≤ e.power → IsHeaded least added e (wrap e)) (he : e.Fits) :
    IsHeaded least added e (e.headed wrap least) := by
  have hwrap : ∀ {e : Expr}, e.Fits → least ≤ e.power →
      IsHeaded least added e (e.headed wrap least) :=
    fun he hle => (headed_of_le hle).symm ▸ h he hle
  by_cases hle : least ≤ e.power
  · exact hwrap he hle
  induction he with
  | @operator t op s lhs rhs e ht hspecial heq hlhs hrhs hleft hright ihl _ =>
    subst heq
    obtain ⟨hpower, hreach, -, -⟩ := InfixOp.facts_of_apply ht hspecial s lhs rhs
    have hlt : op.left < least := by omega
    have hinner : IsHeaded least added lhs (lhs.headed wrap least) := by
      by_cases hle' : least ≤ lhs.power
      · exact hwrap hlhs hle'
      · exact ihl hle'
    have hreach' := (InfixOp.facts_of_apply ht hspecial s (lhs.headed wrap least) rhs).2.1
    rw [headed_apply ht hspecial hlt]
    refine ⟨.operator ht hspecial rfl hinner.fits hrhs (hinner.reach hlt hleft) hright,
      fun _ hn => ?_, ?_⟩
    · rwa [hreach', ← hreach]
    · rw [tokens_apply ht hspecial, tokens_apply ht hspecial, hinner.tokens, List.append_assoc]
  -- nothing else is looser than a sign
  | sign ht => exact absurd ((facts_of_sign ht _ _ _).1 ▸ hleast) hle
  | call hplain => exact absurd ((facts_of_call hplain _ _).1 ▸ hleast) hle
  | _ => exact absurd hleast hle

/-! ### After an expression -/

/-- The second expression fits and has more tokens after those of the first one, and it is as tight
unless `stops` holds for the first one. -/
structure IsTailed (stops : Expr → Bool) (added : List Token) (e e' : Expr) : Prop where
  fits : e'.Fits
  power : stops e = false → e'.power = e.power
  tokens : e'.tokens = e.tokens ++ added

/-- After expressions for which `stops` holds, `wrap` adds tokens.  Where it takes the operand of an
operator or a sign, what it builds is as tight as this asks for. -/
structure Tails (wrap : Expr → Expr) (stops : Expr → Bool) (added : List Token) : Prop where
  closed : ∀ {e : Expr}, e.takesPostfix = true → stops e = true
  fits : ∀ {e : Expr}, e.Fits → stops e = true → (wrap e).Fits
  tokens : ∀ e : Expr, (wrap e).tokens = e.tokens ++ added
  operator : ∀ {t op s lhs rhs}, InfixOp.ofToken? t = some op →
    (∀ name, t = .special name → IsSpecial name) → stops (op.apply s lhs rhs) = false →
    stops rhs = true → op.right ≤ (wrap rhs).power
  sign : ∀ {t name s s' e}, Start.ofToken? t = some (.sign name) →
    stops (call (sym name s') [e] s) = false → stops e = true → Power.sign ≤ (wrap e).power

/-- What is built from an operand is as tight as its place asks for. -/
theorem IsTailed.le_power {n : Nat} (h : IsTailed stops added e (e.tailed wrap stops))
    (hle : n ≤ e.power) (hwrap : stops e = true → n ≤ (wrap e).power) :
    n ≤ (e.tailed wrap stops).power := by
  by_cases hstop : stops e = true
  · rw [tailed_of_stops hstop]
    exact hwrap hstop
  · rwa [h.power (Bool.not_eq_true _ ▸ hstop)]

/-- Adding something after an expression that fits gives one that fits. -/
theorem Tails.isTailed (h : Tails wrap stops added) (he : e.Fits) :
    IsTailed stops added e (e.tailed wrap stops) := by
  -- where it stops, the whole expression is replaced; otherwise it goes on in the last part
  have hstops : ∀ {e : Expr}, e.Fits → stops e = true →
      IsTailed stops added e (e.tailed wrap stops) := by
    intro e he hstop
    rw [tailed_of_stops hstop]
    exact ⟨h.fits he hstop, fun hgo => absurd (hgo ▸ hstop) (by decide), h.tokens e⟩
  induction he with
  | @operator t op s lhs rhs e ht hspecial heq hlhs hrhs hleft hright _ ihr =>
    subst heq
    by_cases hstop : stops (op.apply s lhs rhs) = true
    · exact hstops (.operator ht hspecial rfl hlhs hrhs hleft hright) hstop
    have hgo := Bool.eq_false_iff.2 hstop
    rw [tailed_apply hgo]
    refine ⟨.operator ht hspecial rfl hlhs ihr.fits hleft
      (ihr.le_power hright (h.operator ht hspecial hgo)), fun _ => ?_, ?_⟩
    · rw [(InfixOp.facts_of_apply ht hspecial _ _ _).1,
        (InfixOp.facts_of_apply ht hspecial _ _ _).1]
    · rw [tokens_apply ht hspecial, tokens_apply ht hspecial, ihr.tokens, List.append_assoc,
        List.cons_append]
  | @sign t name s s' e ht he hpower ih =>
    by_cases hstop : stops (call (sym name s') [e] s) = true
    · exact hstops (.sign ht he hpower) hstop
    have hgo := Bool.eq_false_iff.2 hstop
    rw [tailed, if_neg hstop]
    refine ⟨.sign ht ih.fits (ih.le_power hpower (h.sign ht hgo)), fun _ => ?_, ?_⟩
    · rw [(facts_of_sign ht _ _ _).1, (facts_of_sign ht _ _ _).1]
    · rw [tokens_sign ht, tokens_sign ht, ih.tokens, List.cons_append]
  | @lambda params e s hparams he ih =>
    by_cases hstop : stops (lambda params e s) = true
    · exact hstops (.lambda hparams he) hstop
    rw [tailed, if_neg hstop]
    refine ⟨.lambda hparams ih.fits, fun _ => rfl, ?_⟩
    simp only [Expr.tokens, ih.tokens, List.append_assoc, List.cons_append]
  | @ifThen cond yes s hcond hyes _ ih =>
    by_cases hstop : stops (ifThen cond yes s) = true
    · exact hstops (.ifThen hcond hyes) hstop
    rw [tailed, if_neg hstop]
    refine ⟨.ifThen hcond ih.fits, fun _ => rfl, ?_⟩
    simp only [Expr.tokens, ih.tokens, List.append_assoc, List.cons_append]
  | @ifElse cond yes no s hcond hyes hno hend _ _ ih =>
    by_cases hstop : stops (ifElse cond yes no s) = true
    · exact hstops (.ifElse hcond hyes hno hend) hstop
    rw [tailed, if_neg hstop]
    refine ⟨.ifElse hcond hyes ih.fits hend, fun _ => rfl, ?_⟩
    simp only [Expr.tokens, ih.tokens, List.append_assoc, List.cons_append]
  | lit hfloat hint => exact hstops (.lit hfloat hint) (h.closed rfl)
  | sym hname hneg => exact hstops (.sym hname hneg) (h.closed rfl)
  | call hplain hcallee hf hes =>
    exact hstops (.call hplain hcallee hf hes) (h.closed (facts_of_call hplain _ _).2.2.2)
  | paren he => exact hstops (.paren he) (h.closed rfl)
  | block hes => exact hstops (.block hes) (h.closed rfl)
  | list hes => exact hstops (.list hes) (h.closed rfl)
  | record hne hnames hfields => exact hstops (.record hne hnames hfields) (h.closed rfl)
  | field hname hclosed he => exact hstops (.field hname hclosed he) (h.closed rfl)

end Expr

end PipeLang
