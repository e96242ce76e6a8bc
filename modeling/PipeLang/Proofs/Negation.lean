import PipeLang.Proofs.Attachment
import PipeLang.Proofs.FittedPrint
import PipeLang.Proofs.Stripping

/-!
# The printed form of a negation

A call of `neg` is printed as a minus sign and its argument, without parentheses.  So what is read
back is the negation of the first operand that binds as tightly as a sign
(`Expr.Fits.readsAs_negated`), and what comes after the call is taken by the end of the argument.
The main result (`negations_read_back`) says what is read back for a negation, for a field of it and
for an operator with it, and when this is the same tree.
-/

namespace PipeLang

namespace Expr

/-- The call of `neg` on an argument. -/
def negation (s s' : Span) (e : Expr) : Expr := call (sym "neg" s') [e] s

/-- The expression with its first operand negated that binds as tightly as a sign. -/
def negated (s s' : Span) (e : Expr) : Expr := e.headed (negation s s') Power.sign

/-- The expression with its last operand replaced by a field of it. -/
def fielded (name : String) (s : Span) (e : Expr) : Expr :=
  e.tailed (fun e => field e name s) takesPostfix

/-- The expression with an operator after it, which its last operands may take. -/
def continued (op : InfixOp) (s : Span) (e rhs : Expr) : Expr :=
  e.tailed (fun e => op.apply s e rhs) fun e => decide (op.left < e.reach)

/-- The expression with an operator before it, which takes as much of it as is tight enough. -/
def preceded (op : InfixOp) (s : Span) (e lhs : Expr) : Expr :=
  e.headed (fun e => op.apply s lhs e) op.right

variable {e d lhs rhs other : Expr} {s s' s₁ s₂ : Span} {t : Token} {op op' : InfixOp}
  {name : String}

/-! ### Operators and negations compared -/

theorem stripped_apply_eq (h : (op.apply s lhs rhs).stripped = (op'.apply s' d e).stripped) :
    lhs.stripped = d.stripped ∧ rhs.stripped = e.stripped := by
  unfold InfixOp.apply at h
  split at h <;> split at h <;> simp_all [stripped, strippedAll]

theorem stripped_negation_eq (h : (negation s s' d).stripped = (negation s₁ s₂ e).stripped) :
    d.stripped = e.stripped := by
  simpa only [negation, stripped, strippedAll, call.injEq, List.cons.injEq, and_true,
    true_and] using h

theorem stripped_apply_ne_negation :
    (op.apply s lhs rhs).stripped ≠ (negation s₁ s₂ e).stripped := by
  unfold InfixOp.apply
  split <;> simp [negation, stripped, strippedAll]

theorem stripped_apply_ne_field :
    (op.apply s lhs rhs).stripped ≠ (field d name s').stripped := by
  unfold InfixOp.apply
  split <;> simp [stripped]

theorem stripped_negation_ne_field :
    (negation s₁ s₂ e).stripped ≠ (field d name s').stripped := by
  simp [negation, stripped]

theorem sizeOf_operands_lt :
    sizeOf lhs.stripped < sizeOf (op.apply s lhs rhs).stripped ∧
      sizeOf rhs.stripped < sizeOf (op.apply s lhs rhs).stripped := by
  unfold InfixOp.apply
  split
  · simp only [stripped, strippedAll, call.sizeOf_spec, List.cons.sizeOf_spec]
    omega
  · simp only [stripped, assign.sizeOf_spec]
    omega

theorem sizeOf_lt_negation : sizeOf e.stripped < sizeOf (negation s s' e).stripped := by
  simp only [negation, stripped, strippedAll, call.sizeOf_spec, List.cons.sizeOf_spec]
  omega

/-! ### Signs, fields and operators as additions -/

/-- Nothing but an operator binds looser than a sign. -/
theorem Fits.exists_apply (he : e.Fits) (h : e.power < Power.sign) :
    ∃ t op s lhs rhs, InfixOp.ofToken? t = some op ∧
      (∀ name, t = .special name → IsSpecial name) ∧ e = op.apply s lhs rhs ∧
      lhs.Fits ∧ rhs.Fits := by
  cases he with
  | operator ht hspecial heq hlhs hrhs => exact ⟨_, _, _, _, _, ht, hspecial, heq, hlhs, hrhs⟩
  | sign ht => exact absurd ((facts_of_sign ht _ _ _).1 ▸ h) (Nat.lt_irrefl _)
  | call hplain => exact absurd ((facts_of_call hplain _ _).1 ▸ h) (Nat.lt_irrefl _)
  | _ => exact absurd h (Nat.lt_irrefl _)

theorem power_negation : (negation s s' e).power = Power.sign :=
  (facts_of_sign (t := .minus) rfl e s s').1

theorem tokens_negation : (negation s s' e).tokens = .minus :: e.tokens :=
  tokens_sign (t := .minus) rfl

theorem Fits.isHeaded_negation (he : e.Fits) (hle : Power.sign ≤ e.power) (s s' : Span) :
    IsHeaded Power.sign [.minus] e (negation s s' e) where
  fits := .sign (t := .minus) rfl he hle
  reach _ hn := (facts_of_sign (t := .minus) rfl e s s').2.1 ▸ hn
  tokens := tokens_negation

theorem Fits.isHeaded_negated (he : e.Fits) (s s' : Span) :
    IsHeaded Power.sign [.minus] e (e.negated s s') :=
  isHeaded_headed (Nat.le_refl _) (fun he hle => he.isHeaded_negation hle s s') he

theorem tails_field (hname : IsIdentifier name) (s : Span) :
    Tails (fun e => field e name s) takesPostfix [.dollar, .ident name] where
  closed := id
  fits he hclosed := .field hname hclosed he
  tokens e := by rw [tokens]
  operator ht _ _ _ := (InfixOp.bounds_of_ofToken? ht).2.2.2
  sign _ _ _ := Nat.le_refl _

section Operators

variable (ht : InfixOp.ofToken? t = some op) (hspecial : ∀ name, t = .special name → IsSpecial name)
  (hother : other.Fits)

include ht hspecial hother

theorem tails_apply (hright : op.right ≤ other.power) (s : Span) :
    Tails (fun e => op.apply s e other) (fun e => decide (op.left < e.reach))
      (t :: other.tokens) where
  closed {e} hclosed := by
    rw [(facts_of_takesPostfix hclosed).1]
    exact decide_eq_true (InfixOp.bounds_of_ofToken? ht).2.1
  fits he hleft := .operator ht hspecial rfl he hother (of_decide_eq_true hleft) hright
  tokens e := tokens_apply ht hspecial
  operator {t' op' s' lhs rhs} ht' hspecial' hgo hstop := by
    -- the looser operator is the one that is added
    have hle := of_decide_eq_false hgo
    have hlt := of_decide_eq_true hstop
    rw [(InfixOp.facts_of_apply ht' hspecial' s' lhs rhs).2.1] at hle
    rw [(InfixOp.facts_of_apply ht hspecial s rhs other).1]
    omega
  sign {t' name s' s'' e} ht' hgo hstop := by
    have hle := of_decide_eq_false hgo
    rw [(facts_of_sign ht' e s' s'').2.1] at hle
    exact absurd (of_decide_eq_true hstop) hle

theorem isHeaded_apply (he : e.Fits) (hleft : op.left < other.reach) (hle : op.right ≤ e.power)
    (s : Span) : IsHeaded op.right (other.tokens ++ [t]) e (op.apply s other e) where
  fits := .operator ht hspecial rfl hother he hleft hle
  reach hn hlt := by
    rw [(InfixOp.facts_of_apply ht hspecial s other e).2.1]
    exact Nat.lt_min.2 ⟨hn, hlt⟩
  tokens := by
    rw [tokens_apply ht hspecial, List.append_assoc, List.singleton_append]

end Operators

/-! ### What a negation is read as -/

/-- The argument of a negation is read back as its argument only if it binds as tightly as a
sign. -/
theorem Fits.stripped_negated_eq (he : e.Fits)
    (h : (e.negated s s').stripped = (negation s₁ s₂ d).stripped) :
    Power.sign ≤ e.power ∧ e.stripped = d.stripped := by
  by_cases hpower : Power.sign ≤ e.power
  · rw [negated, headed_of_le hpower] at h
    exact ⟨hpower, stripped_negation_eq h⟩
  · obtain ⟨t, op, s₀, lhs, rhs, ht, hspecial, rfl, -⟩ := he.exists_apply (Nat.lt_of_not_le hpower)
    rw [negated, headed_apply ht hspecial (InfixOp.bounds_of_ofToken? ht).2.1] at h
    exact absurd h stripped_apply_ne_negation

theorem Fits.prints_negation (he : e.Fits) : Prints (negation s s' e) :=
  prints_sign (t := .minus) rfl he.prints

/-- A negation is read as that of the first operand of its argument. -/
theorem Fits.readsAs_negated (he : e.Fits) (s s' : Span) :
    (negation s s' e).ReadsAs (e.negated s s') := by
  have h := he.isHeaded_negated s s'
  exact h.fits.exists_parseExpr he.prints_negation (tokens_negation.trans h.tokens.symm)

theorem Fits.readsBack_negation_iff (he : e.Fits) :
    (negation s s' e).ReadsBack ↔ Power.sign ≤ e.power := by
  rw [(he.readsAs_negated s s').readsBack_iff]
  refine ⟨fun h => (he.stripped_negated_eq h).1, fun hpower => ?_⟩
  rw [negated, headed_of_le hpower]

/-! ### A negation within a field or an operator -/

/-- A field of a negation is read as the negation of a field. -/
theorem Fits.readsAs_fielded (he : e.Fits) (hname : IsIdentifier name) (s s' s₁ : Span) :
    (Expr.field (negation s s' e) name s₁).ReadsAs ((e.fielded name s₁).negated s s') := by
  have hfield := (tails_field hname s₁).isTailed he
  have h := hfield.fits.isHeaded_negated s s'
  refine h.fits.exists_parseExpr (prints_field he.prints_negation hname) ?_
  rw [Expr.tokens, tokens_negation, h.tokens, hfield.tokens]
  rfl

theorem Fits.not_readsBack_field (he : e.Fits) (hname : IsIdentifier name) (s s' s₁ : Span) :
    ¬ (Expr.field (negation s s' e) name s₁).ReadsBack := by
  rw [(he.readsAs_fielded hname s s' s₁).readsBack_iff]
  have hfits := ((tails_field hname s₁).isTailed he).fits
  by_cases hpower : Power.sign ≤ (e.fielded name s₁).power
  · rw [negated, headed_of_le hpower]
    exact stripped_negation_ne_field
  · obtain ⟨t, op, s₀, lhs, rhs, ht, hspecial, heq, -⟩ :=
      hfits.exists_apply (Nat.lt_of_not_le hpower)
    rw [fielded, heq, negated, headed_apply ht hspecial (InfixOp.bounds_of_ofToken? ht).2.1]
    exact stripped_apply_ne_field

section Operators

variable (ht : InfixOp.ofToken? t = some op) (hspecial : ∀ name, t = .special name → IsSpecial name)
  (he : e.Fits) (hother : other.Fits) (s s' s₁ : Span)

include ht hspecial he hother

/-- An operator after a negation is read as the negation of what it builds with the argument. -/
theorem readsAs_continued (hright : op.right ≤ other.power) :
    (op.apply s₁ (negation s s' e) other).ReadsAs ((e.continued op s₁ other).negated s s') := by
  have hcontinued := (tails_apply ht hspecial hother hright s₁).isTailed he
  have h := hcontinued.fits.isHeaded_negated s s'
  refine h.fits.exists_parseExpr (prints_apply ht hspecial he.prints_negation hother.prints) ?_
  rw [tokens_apply ht hspecial, tokens_negation, h.tokens, hcontinued.tokens]
  rfl

theorem readsBack_continued_iff (hright : op.right ≤ other.power) :
    (op.apply s₁ (negation s s' e) other).ReadsBack ↔
      Power.sign ≤ e.power ∧ op.left < e.reach := by
  rw [(readsAs_continued ht hspecial he hother s s' s₁ hright).readsBack_iff]
  have hcontinued := (tails_apply ht hspecial hother hright s₁).isTailed he
  have hsign := (InfixOp.bounds_of_ofToken? ht).2.1
  by_cases hleft : op.left < e.reach
  · -- the argument does not take the operator
    rw [continued, tailed_of_stops (decide_eq_true hleft), negated, headed_apply ht hspecial hsign]
    refine ⟨fun h => ⟨(he.stripped_negated_eq (stripped_apply_eq h).1).1, hleft⟩, fun h => ?_⟩
    rw [headed_of_le h.1]
  · -- it does, so the operator is not at the root, or it has less on its left
    refine ⟨fun h => ?_, fun h => absurd h.2 hleft⟩
    have hpower := hcontinued.power (decide_eq_false hleft)
    by_cases hle : Power.sign ≤ e.power
    · rw [continued, negated, headed_of_le (hpower ▸ hle)] at h
      exact absurd h.symm stripped_apply_ne_negation
    · obtain ⟨t', op', s₀, lhs, rhs, ht', hspecial', rfl, hlhs, -⟩ :=
        he.exists_apply (Nat.lt_of_not_le hle)
      rw [continued, tailed_apply (decide_eq_false hleft), negated,
        headed_apply ht' hspecial' (InfixOp.bounds_of_ofToken? ht').2.1] at h
      have heq := (hlhs.stripped_negated_eq (stripped_apply_eq h).1).2
      have hlt := (@sizeOf_operands_lt lhs rhs s₀ op').1
      rw [heq] at hlt
      exact absurd hlt (Nat.lt_irrefl _)

/-- An operator before a negation takes as much of the negated argument as is tight enough. -/
theorem readsAs_preceded (hleft : op.left < other.reach) :
    (op.apply s₁ other (negation s s' e)).ReadsAs ((e.negated s s').preceded op s₁ other) := by
  have hnegated := he.isHeaded_negated s s'
  have h := isHeaded_headed (InfixOp.bounds_of_ofToken? ht).2.2.2
    (fun he hle => isHeaded_apply ht hspecial hother he hleft hle s₁) hnegated.fits
  refine h.fits.exists_parseExpr (prints_apply ht hspecial hother.prints he.prints_negation) ?_
  rw [tokens_apply ht hspecial, tokens_negation, h.tokens, hnegated.tokens, List.append_assoc]
  rfl

theorem readsBack_preceded_iff (hleft : op.left < other.reach) :
    (op.apply s₁ other (negation s s' e)).ReadsBack ↔ Power.sign ≤ e.power := by
  rw [(readsAs_preceded ht hspecial he hother s s' s₁ hleft).readsBack_iff]
  have hsign := (InfixOp.bounds_of_ofToken? ht).2.2.2
  by_cases hpower : Power.sign ≤ e.power
  · refine ⟨fun _ => hpower, fun _ => ?_⟩
    rw [negated, headed_of_le hpower, preceded, headed_of_le (power_negation ▸ hsign)]
  refine ⟨fun h => ?_, fun h => absurd h hpower⟩
  by_cases hle : op.right ≤ (e.negated s s').power
  · rw [preceded, headed_of_le hle] at h
    exact (he.stripped_negated_eq (stripped_apply_eq h).2).1
  · -- the right operand would be a part of the argument
    obtain ⟨t', op', s₀, lhs, rhs, ht', hspecial', rfl, -⟩ :=
      he.exists_apply (Nat.lt_of_not_le hpower)
    have hbounds := InfixOp.bounds_of_ofToken? ht'
    rw [negated, headed_apply ht' hspecial' hbounds.2.1] at h hle
    rw [(InfixOp.facts_of_apply ht' hspecial' _ _ _).1] at hle
    rw [preceded, headed_apply ht' hspecial' (Nat.lt_of_not_le hle)] at h
    have heq := (stripped_apply_eq h).2
    have hlt := (@sizeOf_operands_lt lhs rhs s₀ op').2
    have hlt' := @sizeOf_lt_negation (op'.apply s₀ lhs rhs) s s'
    rw [heq] at hlt
    omega

end Operators

/-! ### Arguments of calls -/

/-- The expression is an argument of a call in a program without line breaks, floats and the name
`neg`. -/
def IsArgument (e : Expr) : Prop :=
  ∃ source lexemes program, lexCode? source = .ok lexemes ∧ (∀ t ∈ lexemes, t.token.IsPlain) ∧
    parseProgram source = .ok program ∧
    ∃ stmt ∈ program, ∃ func args s, Occurs (call func args s) stmt ∧ e ∈ args

theorem IsArgument.fits (h : e.IsArgument) : e.Fits := by
  obtain ⟨source, lexemes, program, hlex, hplain, hparse, stmt, hstmt, func, args, s, hoccurs,
    harg⟩ := h
  rw [parseProgram, hlex] at hparse
  have hfits := Parser.fits_of_program ⟨lexed_of_lexCode? hlex, hplain⟩ hparse stmt hstmt
  rcases hfits.of_occurs hoccurs with hcall | ⟨name, s', hsym⟩
  · exact hcall.of_mem_args harg
  · cases hsym

end Expr

/-- What is read back for the negation of an argument, on its own, as the target of a field, and as
an operand of an operator whose other operand fits.  On its own it is the negation of the first
operand of the argument that binds as tightly as a sign, so it is the same only if this is the whole
argument; a field is never the same; and an operator after the negation must not be taken by an
operand at the end of the argument either. -/
theorem negations_read_back {e : Expr} (he : e.IsArgument) (s s' : Span) :
    ((e.negation s s').ReadsAs (e.negated s s') ∧
      ((e.negation s s').ReadsBack ↔ Power.sign ≤ e.power)) ∧
    (∀ name s₁, IsIdentifier name →
      (Expr.field (e.negation s s') name s₁).ReadsAs ((e.fielded name s₁).negated s s') ∧
      ¬ (Expr.field (e.negation s s') name s₁).ReadsBack) ∧
    ∀ t op s₁ other, InfixOp.ofToken? t = some op →
      (∀ name, t = .special name → IsSpecial name) → other.IsArgument →
      (op.right ≤ other.power →
        (op.apply s₁ (e.negation s s') other).ReadsAs ((e.continued op s₁ other).negated s s') ∧
        ((op.apply s₁ (e.negation s s') other).ReadsBack ↔
          Power.sign ≤ e.power ∧ op.left < e.reach)) ∧
      (op.left < other.reach →
        (op.apply s₁ other (e.negation s s')).ReadsAs ((e.negated s s').preceded op s₁ other) ∧
        ((op.apply s₁ other (e.negation s s')).ReadsBack ↔ Power.sign ≤ e.power)) := by
  -- an argument fits, so that each form is read as the same tokens say
  have hfits := he.fits
  refine ⟨⟨hfits.readsAs_negated s s', hfits.readsBack_negation_iff⟩,
    fun name s₁ hname => ⟨hfits.readsAs_fielded hname s s' s₁,
      hfits.not_readsBack_field hname s s' s₁⟩, fun t op s₁ other ht hspecial hother => ⟨?_, ?_⟩⟩
  · exact fun hright => ⟨Expr.readsAs_continued ht hspecial hfits hother.fits s s' s₁ hright,
      Expr.readsBack_continued_iff ht hspecial hfits hother.fits s s' s₁ hright⟩
  · exact fun hleft => ⟨Expr.readsAs_preceded ht hspecial hfits hother.fits s s' s₁ hleft,
      Expr.readsBack_preceded_iff ht hspecial hfits hother.fits s s' s₁ hleft⟩

/-- The negation of a sum is read as the sum with its first operand negated. -/
theorem negated_sum_is_not_read_back :
    let sum : Expr := .call (.sym "+" ⟨4, 1⟩) [.sym "a" ⟨2, 1⟩, .sym "b" ⟨6, 1⟩] ⟨2, 5⟩
    sum.IsArgument ∧ (sum.negation .nowhere .nowhere).ReadsAs
      (.call (.sym "+" ⟨4, 1⟩) [(Expr.sym "a" ⟨2, 1⟩).negation .nowhere .nowhere, .sym "b" ⟨6, 1⟩]
        ⟨0, 7⟩) ∧
      ¬ (sum.negation .nowhere .nowhere).ReadsBack := by
  intro sum
  have hscan : Scan.ofChars 0 "f(a + b)".toList = ⟨[⟨.ident "f", ⟨0, 1⟩, "f"⟩,
      ⟨.leftParen, ⟨1, 1⟩, "("⟩, ⟨.ident "a", ⟨2, 1⟩, "a"⟩, ⟨.plus, ⟨4, 1⟩, "+"⟩,
      ⟨.ident "b", ⟨6, 1⟩, "b"⟩, ⟨.rightParen, ⟨7, 1⟩, ")"⟩], none⟩ := by
    decide +kernel
  have hlex := lexCode?_of_ofChars hscan
  have hparse : parseProgram "f(a + b)" = .ok [.call (.sym "f" ⟨0, 1⟩) [sum] ⟨0, 8⟩] := by
    rw [parseProgram, hlex]
    rfl
  have hsum : sum.IsArgument := ⟨_, _, _, hlex, by simp [Token.IsPlain], hparse, _,
    List.mem_singleton.2 rfl, _, _, _, .self, List.mem_singleton.2 rfl⟩
  obtain ⟨⟨hreads, hback⟩, -⟩ := negations_read_back hsum .nowhere .nowhere
  refine ⟨hsum, hreads, fun h => ?_⟩
  exact absurd (hback.1 h) (by decide)

/-- A call of `neg` on a sum is printed as a sum that has the negation of its first operand. -/
theorem negated_sum_is_printed_bare :
    parseProgram "neg(a + b)" = .ok [.call (.sym "neg" ⟨0, 3⟩)
      [.call (.sym "+" ⟨6, 1⟩) [.sym "a" ⟨4, 1⟩, .sym "b" ⟨8, 1⟩] ⟨4, 5⟩] ⟨0, 10⟩] ∧
    (Expr.call (.sym "neg" ⟨0, 3⟩)
      [.call (.sym "+" ⟨6, 1⟩) [.sym "a" ⟨4, 1⟩, .sym "b" ⟨8, 1⟩] ⟨4, 5⟩] ⟨0, 10⟩).print =
      "-a + b" ∧
    parseExpr "-a + b" = .ok (.call (.sym "+" ⟨3, 1⟩)
      [.call (.sym "neg" ⟨0, 1⟩) [.sym "a" ⟨1, 1⟩] ⟨0, 2⟩, .sym "b" ⟨5, 1⟩] ⟨0, 6⟩) := by
  have hcall : Scan.ofChars 0 "neg(a + b)".toList = ⟨[⟨.ident "neg", ⟨0, 3⟩, "neg"⟩,
      ⟨.leftParen, ⟨3, 1⟩, "("⟩, ⟨.ident "a", ⟨4, 1⟩, "a"⟩, ⟨.plus, ⟨6, 1⟩, "+"⟩,
      ⟨.ident "b", ⟨8, 1⟩, "b"⟩, ⟨.rightParen, ⟨9, 1⟩, ")"⟩], none⟩ := by
    decide +kernel
  have hsign : Scan.ofChars 0 "-a + b".toList = ⟨[⟨.minus, ⟨0, 1⟩, "-"⟩,
      ⟨.ident "a", ⟨1, 1⟩, "a"⟩, ⟨.plus, ⟨3, 1⟩, "+"⟩, ⟨.ident "b", ⟨5, 1⟩, "b"⟩], none⟩ := by
    decide +kernel
  refine ⟨?_, by decide +kernel, ?_⟩
  · rw [parseProgram, lexCode?_of_ofChars hcall]
    rfl
  · rw [parseExpr, parseProgram, lexCode?_of_ofChars hsign]
    rfl

end PipeLang
