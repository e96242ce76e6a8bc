import PipeLang.Pipe.Unroll

/-!
# Right sides with one placeholder

The right side of a pipe is called on the placeholder.  This is put in front of the arguments of a
call, or of the statements of a block, unless it is one of them already; what uses it further inside
does not count.

A list of operands gets no more than it needs: it has a placeholder afterwards
(`any_withPlaceholder`), one exactly if it had none (`countP_withPlaceholder`), and no list is
shorter that holds the same operands in their order and a placeholder (`length_withPlaceholder_le`).
Hence a second placeholder is never added, to a list or to an expression
(`withPlaceholder_withPlaceholder`, `addPlaceholder_addPlaceholder`, `asPipeCall_asPipeCall`), and
a chain has the same steps whether its right sides name the placeholder where it would be put or
leave it out (`step_asPipeCall`).
-/

namespace PipeLang.Expr

/-! ### Lists of operands -/

section

variable {es es' : List Expr} {s s' : Span}

theorem withPlaceholder_of_any (h : es.any isPlaceholder = true) (s : Span) :
    withPlaceholder s es = es := if_pos h

theorem withPlaceholder_of_not_any (h : ¬ es.any isPlaceholder = true) (s : Span) :
    withPlaceholder s es = sym placeholder s :: es := if_neg h

@[simp] theorem any_withPlaceholder (s : Span) (es : List Expr) :
    (withPlaceholder s es).any isPlaceholder = true := by
  by_cases h : es.any isPlaceholder = true
  · rw [withPlaceholder_of_any h, h]
  · rw [withPlaceholder_of_not_any h, List.any_cons, isPlaceholder_sym, Bool.true_or]

@[simp] theorem withPlaceholder_withPlaceholder (s s' : Span) (es : List Expr) :
    withPlaceholder s' (withPlaceholder s es) = withPlaceholder s es :=
  withPlaceholder_of_any (any_withPlaceholder s es) s'

/-- A placeholder is added exactly if there is none. -/
theorem countP_withPlaceholder (s : Span) (es : List Expr) :
    (withPlaceholder s es).countP isPlaceholder = max 1 (es.countP isPlaceholder) := by
  by_cases h : es.any isPlaceholder = true
  · have hpos : 0 < es.countP isPlaceholder := List.countP_pos_iff.2 (List.any_eq_true.1 h)
    rw [withPlaceholder_of_any h, Nat.max_eq_right hpos]
  · have hzero : es.countP isPlaceholder = 0 := by simpa [List.countP_eq_zero] using h
    rw [withPlaceholder_of_not_any h, List.countP_cons_of_pos (isPlaceholder_sym s), hzero]
    rfl

theorem sublist_withPlaceholder (s : Span) (es : List Expr) :
    es.Sublist (withPlaceholder s es) := by
  unfold withPlaceholder
  split
  · exact List.Sublist.refl es
  · exact List.sublist_cons_self _ _

/-- The least that holds these operands in their order, and a placeholder. -/
theorem length_withPlaceholder_le (s : Span) (h : es.Sublist es')
    (hany : es'.any isPlaceholder = true) : (withPlaceholder s es).length ≤ es'.length := by
  by_cases hes : es.any isPlaceholder = true
  · rw [withPlaceholder_of_any hes]
    exact h.length_le
  · have hne : es.length ≠ es'.length := by
      intro hlength
      rw [h.eq_of_length hlength] at hes
      exact hes hany
    rw [withPlaceholder_of_not_any hes]
    exact Nat.lt_of_le_of_ne h.length_le hne

end

/-! ### Right sides -/

/-- The arguments of a call, the statements of a block. -/
def operands? : Expr → Option (List Expr)
  | call _ args _ => some args
  | block stmts _ => some stmts
  | _ => none

/-- Whether the expression is a call or a block, and the placeholder itself one of its arguments or
statements. -/
def hasPlaceholder (e : Expr) : Bool := e.operands?.any fun es => es.any isPlaceholder

/-- The expression with one more placeholder, in front; anything but a call or a block is called on
it. -/
def prependPlaceholder : Expr → Expr
  | call func args s => call func (sym placeholder s :: args) s
  | block stmts s => block (sym placeholder s :: stmts) s
  | e => call e [sym placeholder e.span] e.span

variable {e : Expr}

theorem isPlaceholder_iff : e.isPlaceholder = true ↔ ∃ s, e = sym placeholder s := by
  constructor
  · intro h
    cases e with
    | sym name s => exact ⟨s, congrArg (sym · s) (beq_iff_eq.1 h)⟩
    | _ => cases h
  · rintro ⟨s, rfl⟩
    exact isPlaceholder_sym s

/-- Only a bare placeholder counts, wherever it was written. -/
theorem hasPlaceholder_iff :
    e.hasPlaceholder = true ↔ ∃ es s, e.operands? = some es ∧ sym placeholder s ∈ es := by
  rw [hasPlaceholder, Option.any_eq_true]
  constructor
  · rintro ⟨es, hes, hany⟩
    obtain ⟨d, hd, hdot⟩ := List.any_eq_true.1 hany
    obtain ⟨s, rfl⟩ := isPlaceholder_iff.1 hdot
    exact ⟨es, s, hes, hd⟩
  · rintro ⟨es, s, hes, hd⟩
    exact ⟨es, hes, List.any_eq_true.2 ⟨_, hd, isPlaceholder_sym s⟩⟩

@[simp] theorem span_asPipeCall (e : Expr) : e.asPipeCall.span = e.span := by cases e <;> rfl

theorem asPipeCall_of_hasPlaceholder (h : e.hasPlaceholder = true) : e.asPipeCall = e := by
  cases e with
  | call func args s => exact congrArg (call func · s) (withPlaceholder_of_any h s)
  | block stmts s => exact congrArg (block · s) (withPlaceholder_of_any h s)
  | _ => cases h

theorem asPipeCall_of_not_hasPlaceholder (h : ¬ e.hasPlaceholder = true) :
    e.asPipeCall = e.prependPlaceholder := by
  cases e with
  | call func args s => exact congrArg (call func · s) (withPlaceholder_of_not_any h s)
  | block stmts s => exact congrArg (block · s) (withPlaceholder_of_not_any h s)
  | _ => rfl

theorem hasPlaceholder_asPipeCall (e : Expr) : e.asPipeCall.hasPlaceholder = true := by
  cases e <;> exact any_withPlaceholder _ _

theorem asPipeCall_asPipeCall (e : Expr) : e.asPipeCall.asPipeCall = e.asPipeCall :=
  asPipeCall_of_hasPlaceholder (hasPlaceholder_asPipeCall e)

theorem addPlaceholder_addPlaceholder (e : Expr) :
    e.addPlaceholder.addPlaceholder = e.addPlaceholder := by
  cases e with
  | call func args s => exact congrArg (call func · s) (withPlaceholder_withPlaceholder s s args)
  | block stmts s => exact congrArg (block · s) (withPlaceholder_withPlaceholder s s stmts)
  | _ => rfl

theorem operands?_asPipeCall (e : Expr) :
    e.asPipeCall.operands? = some (withPlaceholder e.span (e.operands?.getD [])) := by
  cases e <;> rfl

/-- Nothing but a dollar pipe can tell whether the placeholder was there or put there. -/
theorem step_asPipeCall {kind : PipeKind} (h : kind ≠ .dollar) (e : Expr) :
    kind.step e.asPipeCall = kind.step e := by
  cases kind with
  | standard | compound => exact asPipeCall_asPipeCall e
  | tee => simp only [PipeKind.step, asTeeCall, asPipeCall_asPipeCall, span_asPipeCall]
  | dollar => exact absurd rfl h

/-- A right side becomes a call or a block with the placeholder among its arguments or statements.
If it is one already, nothing changes; otherwise one placeholder is put in front.  The operands are
kept in their order, and there is no shorter way to have a placeholder among them.  To do all this
again changes nothing. -/
theorem placeholder_is_added_once (e : Expr) :
    (∃ es s, e.asPipeCall.operands? = some es ∧ sym placeholder s ∈ es) ∧
    (e.hasPlaceholder = true → e.asPipeCall = e) ∧
    (¬ e.hasPlaceholder = true → e.asPipeCall = e.prependPlaceholder) ∧
    (∃ es, e.asPipeCall.operands? = some es ∧
      es.countP isPlaceholder = max 1 ((e.operands?.getD []).countP isPlaceholder) ∧
      (e.operands?.getD []).Sublist es ∧
      ∀ es', (e.operands?.getD []).Sublist es' → es'.any isPlaceholder = true →
        es.length ≤ es'.length) ∧
    e.asPipeCall.asPipeCall = e.asPipeCall ∧
    e.addPlaceholder.addPlaceholder = e.addPlaceholder :=
  ⟨hasPlaceholder_iff.1 (hasPlaceholder_asPipeCall e), asPipeCall_of_hasPlaceholder,
    asPipeCall_of_not_hasPlaceholder,
    ⟨_, operands?_asPipeCall e, countP_withPlaceholder _ _, sublist_withPlaceholder _ _,
      fun _ => length_withPlaceholder_le _⟩,
    asPipeCall_asPipeCall e, addPlaceholder_addPlaceholder e⟩

/-- A placeholder further inside does not count: `f(g(.))` becomes `f(., g(.))`, and stays so. -/
theorem placeholder_before_nested_one :
    let inner := call (sym "g" ⟨2, 1⟩) [sym placeholder ⟨4, 1⟩] ⟨2, 4⟩
    let piped := call (sym "f" ⟨0, 1⟩) [sym placeholder ⟨0, 7⟩, inner] ⟨0, 7⟩
    (call (sym "f" ⟨0, 1⟩) [inner] ⟨0, 7⟩).asPipeCall = piped ∧ piped.asPipeCall = piped :=
  ⟨(placeholder_is_added_once _).2.2.1 (by decide), (placeholder_is_added_once _).2.1 (by decide)⟩

end PipeLang.Expr
