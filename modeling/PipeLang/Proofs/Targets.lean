import PipeLang.Proofs.Invariant
import PipeLang.Proofs.Surface

/-!
# What expressions assign to

An assignment writes to the frame of the environment that it is evaluated in.  So the names that an
expression can bind there are those that it assigns to outside of functions, with an arrow or as the
left side of a compound link (`Expr.Sets`); what is assigned in the body of a function goes to the
frame of a call.  An assignment to outer variables reaches further, wherever it stands
(`Expr.reassigns`).

The step of a right side assigns to nothing that the right side does not (`Sets.of_step`,
`reassigns_of_step`).
-/

namespace PipeLang

/-! ### Occurrences -/

mutual

/-- Whether a test holds of the expression or of one that occurs in it. -/
def Expr.has (test : Expr → Bool) : Expr → Bool
  | .lit literal s => test (.lit literal s)
  | .sym name s => test (.sym name s)
  | .call func args s => test (.call func args s) || func.has test || Expr.anyHas test args
  | .paren e s => test (.paren e s) || e.has test
  | .block es s => test (.block es s) || Expr.anyHas test es
  | .list es s => test (.list es s) || Expr.anyHas test es
  | .record fields s => test (.record fields s) || Expr.anyFieldHas test fields
  | .field e name s => test (.field e name s) || e.has test
  | .lambda params body s => test (.lambda params body s) || body.has test
  | .ifThen cond yes s => test (.ifThen cond yes s) || cond.has test || yes.has test
  | .ifElse cond yes no s =>
    test (.ifElse cond yes no s) || cond.has test || yes.has test || no.has test
  | .assign target value scope s =>
    test (.assign target value scope s) || target.has test || value.has test
  | .inline label ref s => test (.inline label ref s)

/-- Whether it does of one of some expressions, or in it. -/
def Expr.anyHas (test : Expr → Bool) : List Expr → Bool
  | [] => false
  | e :: rest => e.has test || Expr.anyHas test rest

/-- Whether it does of one of some named expressions, or in it. -/
def Expr.anyFieldHas (test : Expr → Bool) : List (String × Expr) → Bool
  | [] => false
  | (_, e) :: rest => e.has test || Expr.anyFieldHas test rest

end

namespace Expr

variable {test : Expr → Bool} {name : String} {d e : Expr}

/-- Of a list it is asked whether one of its items has it. -/
theorem anyHas_iff {es : List Expr} : anyHas test es ↔ ∃ e ∈ es, e.has test := by
  induction es with
  | nil => simp [anyHas]
  | cons e rest ih => simp [anyHas, ih]

/-- Of fields, whether one of their expressions has it. -/
theorem anyFieldHas_iff {fields : List (String × Expr)} :
    anyFieldHas test fields ↔ ∃ e ∈ fields.map Prod.snd, e.has test := by
  induction fields with
  | nil => simp [anyFieldHas]
  | cons entry rest ih =>
    obtain ⟨key, e⟩ := entry
    rw [anyFieldHas, Bool.or_eq_true, ih, List.map_cons, List.exists_mem_cons_iff]

theorem has_of_test (h : test e) : e.has test := by
  cases e <;> simp [has, h]

/-- What occurs in a part occurs in the whole. -/
theorem has_of_part {part : Expr} (hpart : part ∈ e.parts) (h : part.has test) : e.has test := by
  -- one case for each form, by its own list of parts
  cases e with
  | lit | sym | inline | lambda => cases hpart
  | paren | field =>
    obtain rfl := List.mem_singleton.1 hpart
    simp [has, h]
  | block es s | list es s =>
    have hany : anyHas test es := anyHas_iff.2 ⟨part, hpart, h⟩
    simp [has, hany]
  | record fields s =>
    have hany : anyFieldHas test fields := anyFieldHas_iff.2 ⟨part, hpart, h⟩
    simp [has, hany]
  | call func args s =>
    rcases List.mem_cons.1 hpart with rfl | hpart
    · simp [has, h]
    · simp [has, anyHas_iff.2 ⟨part, hpart, h⟩]
  | ifThen | ifElse | assign =>
    simp only [parts, List.mem_cons, List.not_mem_nil, or_false] at hpart
    rcases hpart with rfl | rfl | rfl <;> simp [has, h]

/-- A body is no part that is evaluated with the lambda, but what occurs in it occurs. -/
theorem has_of_body {params : List String} {body : Expr} {s : Span} (h : body.has test) :
    (lambda params body s).has test := by
  simp [has, h]

/-- The expressions that stand directly in an expression. -/
def children : Expr → List Expr
  | lambda _ body _ => [body]
  | assign target value _ _ => [target, value]
  | e => e.parts

/-- What occurs in an expression is the expression itself or occurs in one of its children. -/
theorem has_iff :
    e.has test ↔ test e ∨ ∃ child ∈ e.children, child.has test := by
  cases e with
  | lit | sym | inline => simp [has, children, parts]
  | block | list => simp [has, children, parts, anyHas_iff]
  | record => simp [has, children, parts, anyFieldHas_iff]
  | call => simp [has, children, parts, anyHas_iff, or_assoc]
  | paren | field | lambda | ifThen | ifElse | assign => simp [has, children, parts, or_assoc]

/-- What occurs in an expression, if that is no assignment and no function, is the expression
itself or occurs in one of its parts. -/
theorem exists_part_of_has (h : e.has test)
    (hassign : ∀ target value scope s, e ≠ assign target value scope s)
    (hlambda : ∀ params body s, e ≠ lambda params body s) :
    test e ∨ ∃ part ∈ e.parts, part.has test := by
  cases e with
  | assign target value scope s => exact absurd rfl (hassign target value scope s)
  | lambda params body s => exact absurd rfl (hlambda params body s)
  | lit | sym | inline => exact .inl h
  | block es s | list es s =>
    rw [has, Bool.or_eq_true, anyHas_iff] at h
    exact h
  | record fields s =>
    rw [has, Bool.or_eq_true, anyFieldHas_iff] at h
    exact h
  | call func args s =>
    rw [has, Bool.or_eq_true, Bool.or_eq_true, anyHas_iff, or_assoc] at h
    simpa [parts] using h
  | paren | field | ifThen | ifElse => simpa [has, parts, or_assoc] using h

/-- An assignment to an outer variable. -/
def isOuterAssign : Expr → Bool
  | assign _ _ .outer _ => true
  | _ => false

/-- Whether an assignment to an outer variable occurs. -/
def reassigns (e : Expr) : Bool := e.has isOuterAssign

/-- Whether a name occurs as a symbol. -/
def mentions (name : String) (e : Expr) : Bool := e.has fun part => part.isSym name

/-- The expression occurs in this one outside of functions, where it may be evaluated. -/
inductive StandsIn (d : Expr) : Expr → Prop
  | self : StandsIn d d
  | part {e part : Expr} (hpart : part ∈ e.parts) (h : StandsIn d part) : StandsIn d e

/-- The expression is an assignment to the name, with an arrow or as a compound link. -/
def AssignsTo (name : String) : Expr → Prop
  | .assign (.sym target _) _ .inner _ => target = name
  | .call (.sym op _) [.sym target _, _] _ => op = PipeOp.compound.name ∧ target = name
  | _ => False

/-- An assignment to the name occurs outside of functions. -/
def Sets (name : String) (e : Expr) : Prop := ∃ d, StandsIn d e ∧ d.AssignsTo name

/-- What is set in a part is set by the whole. -/
theorem Sets.of_part {part : Expr} (hpart : part ∈ e.parts) (h : part.Sets name) : e.Sets name := by
  obtain ⟨d, hd, hname⟩ := h
  exact ⟨d, .part hpart hd, hname⟩

/-- An expression sets what it assigns to itself and what its parts set. -/
theorem sets_iff : e.Sets name ↔ e.AssignsTo name ∨ ∃ part ∈ e.parts, part.Sets name := by
  constructor
  · rintro ⟨d, hd, hname⟩
    cases hd with
    | self => exact .inl hname
    | part hpart h => exact .inr ⟨_, hpart, d, h, hname⟩
  · rintro (h | ⟨part, hpart, h⟩)
    · exact ⟨e, .self, h⟩
    · exact h.of_part hpart

theorem not_sets_of_no_parts (hparts : e.parts = []) (hself : ¬ e.AssignsTo name) :
    ¬ e.Sets name := by
  rw [sets_iff, hparts]
  rintro (h | ⟨_, h, -⟩)
  · exact hself h
  · cases h

/-! ### Steps -/

theorem not_sets_placeholder (s : Span) : ¬ (sym placeholder s).Sets name :=
  not_sets_of_no_parts rfl id

/-- Only a placeholder is added. -/
theorem mem_withPlaceholder {s : Span} {es : List Expr} (h : d ∈ withPlaceholder s es) :
    d ∈ es ∨ d = sym placeholder s := by
  unfold withPlaceholder at h
  split at h
  · exact .inl h
  · exact (List.mem_cons.1 h).symm

/-- A call that is no pipe assigns to nothing itself. -/
theorem not_assignsTo_call {func : Expr} {args : List Expr} {s : Span}
    (hplain : (call func args s).pipeKind? = none) : ¬ (call func args s).AssignsTo name := by
  intro h
  unfold AssignsTo at h
  split at h
  · next heq => cases heq
  · next heq =>
    cases heq
    obtain ⟨rfl, -⟩ := h
    cases hplain
  · exact h

/-- Whether a call is a pipe depends on the callee. -/
theorem pipeKind?_call_congr (func : Expr) (args args' : List Expr) (s s' : Span) :
    (call func args s).pipeKind? = (call func args' s').pipeKind? := by
  cases func <;> rfl

/-- Where the parts of a call on the placeholder come from. -/
theorem mem_parts_asPipeCall {part : Expr} (h : part ∈ e.asPipeCall.parts) :
    part ∈ e.parts ∨ part = e ∨ ∃ s, part = sym placeholder s := by
  cases e with
  | call func args s =>
    rcases List.mem_cons.1 h with rfl | h
    · exact .inl List.mem_cons_self
    · rcases mem_withPlaceholder h with h | rfl
      · exact .inl (List.mem_cons_of_mem _ h)
      · exact .inr (.inr ⟨s, rfl⟩)
  | block stmts s =>
    rcases mem_withPlaceholder h with h | rfl
    · exact .inl h
    · exact .inr (.inr ⟨s, rfl⟩)
  | _ =>
    rcases List.mem_cons.1 h with rfl | h
    · exact .inr (.inl rfl)
    · exact .inr (.inr ⟨_, List.mem_singleton.1 h⟩)

/-- A call of the step sets no more than the step does. -/
theorem Sets.of_asPipeCall (hplain : e.pipeKind? = none) (h : e.asPipeCall.Sets name) :
    e.Sets name := by
  rcases sets_iff.1 h with hself | ⟨part, hpart, hset⟩
  · refine absurd hself ?_
    cases e with
    | call func args s =>
      exact not_assignsTo_call ((pipeKind?_call_congr func _ args s s).trans hplain)
    | block => exact id
    | sym op at_ => exact fun h => h
    | _ => exact id
  · rcases mem_parts_asPipeCall hpart with hold | rfl | ⟨s, rfl⟩
    · exact hset.of_part hold
    · exact hset
    · exact absurd hset (not_sets_placeholder s)

/-- A test that does not hold of calls, blocks and the placeholder does not hold of anything more in
the call on the placeholder. -/
theorem has_of_asPipeCall (hcall : ∀ func args s, test (call func args s) = false)
    (hblock : ∀ es s, test (block es s) = false) (hdot : ∀ s, test (sym placeholder s) = false)
    (h : e.asPipeCall.has test) : e.has test := by
  have hself : test e.asPipeCall = false := by
    cases e with
    | block es s => exact hblock _ s
    | _ => exact hcall _ _ _
  rcases exists_part_of_has h (by cases e <;> simp [asPipeCall, addPlaceholder])
    (by cases e <;> simp [asPipeCall, addPlaceholder]) with htest | ⟨part, hpart, hhas⟩
  · rw [hself] at htest
    cases htest
  · rcases mem_parts_asPipeCall hpart with hold | rfl | ⟨s, rfl⟩
    · exact has_of_part hold hhas
    · exact hhas
    · rw [has, hdot] at hhas
      cases hhas

/-- Steps add calls, blocks, placeholders and the scope, and nothing else. -/
theorem has_of_step (hcall : ∀ func args s, test (call func args s) = false)
    (hblock : ∀ es s, test (block es s) = false) (hdot : ∀ s, test (sym placeholder s) = false)
    (hscope : ∀ s, test (sym scopeName s) = false) {kind : PipeKind}
    (h : (kind.step e).has test) : e.has test := by
  cases kind with
  | standard | compound => exact has_of_asPipeCall hcall hblock hdot h
  | tee =>
    simp only [PipeKind.step, asTeeCall, has, anyHas, hblock, hdot, Bool.false_or,
      Bool.or_false] at h
    exact has_of_asPipeCall hcall hblock hdot h
  | dollar =>
    simpa only [PipeKind.step, asDollarCall, has, anyHas, hcall, hdot, hscope, Bool.false_or,
      Bool.or_false] using h

/-- So a step sets no name that its operand does not set. -/
theorem Sets.of_step (hplain : e.pipeKind? = none) {kind : PipeKind} (h : (kind.step e).Sets name) :
    e.Sets name := by
  cases kind with
  | standard | compound => exact h.of_asPipeCall hplain
  | tee =>
    rcases sets_iff.1 h with hself | ⟨part, hpart, hset⟩
    · exact hself.elim
    · rcases List.mem_pair.1 hpart with rfl | rfl
      · exact hset.of_asPipeCall hplain
      · exact absurd hset (not_sets_placeholder _)
  | dollar =>
    rcases sets_iff.1 h with hself | ⟨part, hpart, hset⟩
    · exact absurd hself (not_assignsTo_call rfl)
    · rcases List.mem_cons.1 hpart with rfl | hpart
      · exact absurd hset (not_sets_of_no_parts rfl id)
      · rcases List.mem_pair.1 hpart with rfl | rfl
        · exact absurd hset (not_sets_placeholder _)
        · exact hset

theorem reassigns_of_step {kind : PipeKind} (h : (kind.step e).reassigns) : e.reassigns :=
  has_of_step (fun _ _ _ => rfl) (fun _ _ => rfl) (fun _ => rfl) (fun _ => rfl) h

/-- The step of a right side mentions no bare name but the placeholder that the right side does
not. -/
theorem mentions_of_step (hname : name ≠ placeholder) (hbare : unqualified? name = none)
    {kind : PipeKind} (h : (kind.step e).mentions name) : e.mentions name := by
  refine has_of_step (fun _ _ _ => rfl) (fun _ _ => rfl) (fun s => ?_) (fun s => ?_) h
  · rw [isSym_sym, beq_eq_false_iff_ne]
    exact hname.symm
  · rw [isSym_sym, beq_eq_false_iff_ne]
    rintro rfl
    cases hbare

end Expr

end PipeLang
