import PipeLang.Program
import PipeLang.Proofs.AlikeCode
import PipeLang.Proofs.Lockstep
import PipeLang.Proofs.Placeholder
import PipeLang.Proofs.Targets

/-!
# Two programs side by side

From the start of a fresh environment nothing but the builtins' frame binds the pipe operators, and
no pipe operator is ever a value that a program can hold.  So a pipe is run where its operator is
written and nowhere else, by the kind of the operator and what it asks for.

In the simulation of this module, `Rules.simulation`, two programs run side by side that are equal
but for pipe operators with the same kind, and such that the mode does not tell them apart; and the
names that are bound in the global frame are kept within what the programs set there.  What comes of
it from the start to any nesting is `Rules.ends_program`.

A chain that is run step by step in the global frame binds the placeholder there meanwhile.  That is
what the worlds of the simulation are for: in one of them the placeholder may be bound, and a chain
is run there, but ends in the world in which it has begun (`Rules.evalEager_global`).
-/

namespace PipeLang

/-- The frame that programs run in. -/
def globalFrame : FrameId := (Store.empty.addFrame rootBindings).nextFrame

/-- What two programs that are run side by side must keep to. -/
structure Rules where
  mode : PipeMode
  /-- The pipe operators that may stand for each other. -/
  operator : PipeOp → PipeOp → Prop := Eq
  /-- The names that may be bound in the global frame. -/
  allowed : String → Prop := fun _ => True
  /-- Whether there may be assignments to outer variables. -/
  outer : Prop := True

namespace Rules

variable (R : Rules)

/-- The expressions may differ in the pipe operators. -/
def variation : Variation := .ofOperators R.operator

/-- Operators that stand for each other do the same, and so do the two programs. -/
structure Fit : Prop where
  refl : ∀ op, R.operator op op
  kind : ∀ {op op'}, R.operator op op' → op.kind = op'.kind
  isLazy : ∀ {op op'}, R.operator op op' → R.mode.isLazy op.isLazy = R.mode.isLazy op'.isLazy
  allowed : R.outer → ∀ name, R.allowed name

/-- The environments that come up. -/
structure Met (env : Env) : Prop where
  inside : env.Inside builtinFrame
  mode : env.mode = R.mode

/-- The expressions that come up. -/
structure Code (e e' : Expr) : Prop where
  alike : e.Alike R.variation e'
  pipes : e.PipesInfix
  outer : e.reassigns → R.outer

/-- The expressions that are evaluated in an environment. -/
structure CodeIn (env : Env) (e e' : Expr) : Prop extends Code R e e' where
  sets : env.own = globalFrame → ∀ name, e.Sets name → R.allowed name

/-- The closures that are called. -/
structure Called (c c' : Closure) : Prop where
  env : c'.env = c.env
  met : R.Met c.env
  params : ∀ name ∈ c.params, NoPipe name
  body : R.Code c.body c'.body

/-- The left sides of compound links. -/
structure Target (env : Env) (e e' : Expr) : Prop where
  alike : e.Alike R.variation e'
  pipes : e.PipesInfix
  sets : env.own = globalFrame → ∀ name, e.targetName = .ok name → R.allowed name

/-- The values that come up: no pipe operators, and no records with a field called like one. -/
def likeness : Likeness where
  closure := R.Called
  special s := False ∨ ∀ op, s ≠ .pipe op
  name := NoPipe

/-- What a name is bound to in a frame.  In the global frame that may be the placeholder while a
chain is run there. -/
inductive Slot (running : Bool) (frame : FrameId) (name : String) : Binding → Binding → Prop
  | builtin {b : Binding} (hframe : frame = builtinFrame) (h : rootBindings.get? name = some b) :
      Slot running frame name b b
  | other {b b' : Binding} (hframe : frame ≠ builtinFrame) (hname : NoPipe name)
      (hglobal : frame = globalFrame → R.allowed name ∨ running = true ∧ name = placeholder)
      (h : Binding.Alike R.likeness Eq b b') : Slot running frame name b b'

/-- Two programs side by side. -/
def simulation : Simulation where
  World := Bool
  le := Eq
  sized _ z := 2 ≤ z.frames
  resize w _ := w
  env _ := R.Met
  code _ := R.CodeIn
  closure _ := R.Called
  slot := R.Slot
  kept frame name := frame = builtinFrame ∧ (rootBindings.get? name).isSome
  free := False
  name := NoPipe
  operator := R.operator
  target _ := R.Target
  quote := R.variation.Quotes

variable {R} {w : Bool} {env : Env} {e e' : Expr} {name name' : String}

/-! ### Symbols -/

/-- Only operators may be exchanged for other symbols. -/
theorem eq_of_symbol (h : R.variation.symbol name name') (hname : NoPipe name) : name' = name := by
  rcases h with rfl | ⟨op, op', -, rfl, -⟩
  · rfl
  · exact absurd rfl (ofName?_eq_none_iff.1 hname.1 op)

/-- What stands for an operator is an operator that the rules allow for it. -/
theorem exists_operator_of_symbol (hR : R.Fit) {op : PipeOp}
    (h : R.variation.symbol op.name name) : ∃ op', R.operator op op' ∧ name = op'.name := by
  rcases h with rfl | ⟨other, op', hop, hname, rfl⟩
  · exact ⟨op, hR.refl op, rfl⟩
  · have heq : some other = some op := by
      rw [← PipeOp.ofName?_name other, ← PipeOp.ofName?_name op, hname]
    cases heq
    exact ⟨op', hop, rfl⟩

/-- The placeholder is no operator, and stands for itself only. -/
theorem fits_variation : R.variation.Fits where
  placeholder {name name'} h := by
    rcases h with rfl | ⟨op, op', -, rfl, rfl⟩
    · rfl
    · cases op <;> cases op' <;> decide
  refl_placeholder := .inl rfl
  refl_scopeName := .inl rfl

/-! ### Parts of expressions -/

namespace CodeIn

/-- Parts of expressions that come up do so themselves. -/
theorem of_part (h : R.CodeIn env e e') {part part' : Expr} (hpart : part ∈ e.parts)
    (halike : part.Alike R.variation part') (hpipes : part.PipesInfix) :
    R.CodeIn env part part' where
  alike := halike
  pipes := hpipes
  outer hout := h.outer (Expr.has_of_part hpart hout)
  sets hown name hname := h.sets hown name (hname.of_part hpart)

/-- The parts of corresponding code correspond, if they are alike and their pipes are infix. -/
theorem of_parts (h : R.CodeIn env e e') {es es' : List Expr}
    (hparts : ∀ part ∈ es, part ∈ e.parts)
    (halike : List.Forall₂ (Expr.Alike R.variation) es es')
    (hpipes : ∀ part ∈ es, part.PipesInfix) :
    List.Forall₂ (R.CodeIn env) es es' := by
  induction halike with
  | nil => exact .nil
  | cons hpart _ ih =>
    rw [List.forall_mem_cons] at hparts hpipes
    exact .cons (h.of_part hparts.1 hpart hpipes.1) (ih hparts.2 hpipes.2)

/-- In a frame other than the global one names may be set. -/
theorem of_code (h : R.Code e e') (hown : env.own ≠ globalFrame) : R.CodeIn env e e' :=
  ⟨h, fun heq => absurd heq hown⟩

end CodeIn

/-- A target is no operator, so that both sides assign to one name or fail with alike texts. -/
theorem targetName_alike (halike : e.Alike R.variation e') (hpipes : e.PipesInfix) :
    R.simulation.SameTarget e.targetName e'.targetName := by
  have hquote : R.simulation.quote e.print e'.print := ⟨e, e', halike, rfl, rfl⟩
  cases halike with
  | @sym name name' h s s' =>
    cases hpipes with
    | sym hname =>
      obtain rfl := eq_of_symbol h hname
      rw [Expr.targetName, Expr.targetName]
      split
      · exact .inr ⟨_, _, rfl, rfl, hquote⟩
      · exact .inl ⟨_, rfl, rfl⟩
  | _ => exact .inr ⟨_, _, rfl, rfl, hquote⟩

/-- A compound link sets the name of its target. -/
theorem sets_of_targetName {right : Expr} {at_ s : Span} (h : e.targetName = .ok name) :
    (Expr.call (.sym PipeOp.compound.name at_) [e, right] s).Sets name := by
  refine Expr.sets_iff.2 (.inl ?_)
  cases e with
  | sym target span =>
    rw [Expr.targetName] at h
    split at h
    · cases h
    · cases h
      exact ⟨rfl, rfl⟩
  | _ => cases h

/-- Expressions that come up have the same form, with parts that come up. -/
theorem forms (hR : R.Fit) (h : R.CodeIn env e e') : R.simulation.Matches w env e e' := by
  have halike := h.alike
  have hpipes := h.pipes
  cases halike with
  | lit literal s s' => exact .lit literal s s'
  | sym hsym s s' =>
    cases hpipes with
    | sym hname =>
      -- a symbol that is no operator is the same on both sides
      obtain rfl := eq_of_symbol hsym hname
      exact .sym _ s s'
  | inline label href s s' => exact .inline _ _ _ _ s s'
  | paren he s s' =>
    cases hpipes with
    | paren hp => exact .paren (h.of_part (by simp [Expr.parts]) he hp) trivial
  | block hes s s' =>
    cases hpipes with
    | block hp => exact .block (h.of_parts (fun _ hmem => hmem) hes hp) s s'
  | list hes s s' =>
    cases hpipes with
    | list hp => exact .list (h.of_parts (fun _ hmem => hmem) hes hp) s s'
  | record hnames hes s s' =>
    cases hpipes with
    | record hall hp =>
      exact .record (Fields.alike_iff.2 ⟨hnames, h.of_parts (fun _ hmem => hmem) hes hp⟩) hall s s'
  | field he name s s' =>
    cases hpipes with
    | field hp => exact .field (h.of_part (by simp [Expr.parts]) he hp) name s s'
  | lambda params he s s' => exact .lambda params _ _ s s'
  | ifThen hcond hyes s s' =>
    cases hpipes with
    | ifThen hc hy =>
      exact .ifThen (h.of_part (by simp [Expr.parts]) hcond hc)
        (h.of_part (by simp [Expr.parts]) hyes hy) s s'
  | ifElse hcond hyes hno s s' =>
    cases hpipes with
    | ifElse hc hy hn =>
      exact .ifElse (h.of_part (by simp [Expr.parts]) hcond hc)
        (h.of_part (by simp [Expr.parts]) hyes hy) (h.of_part (by simp [Expr.parts]) hno hn) s s'
  -- an assignment to a name is one on both sides; any other target is an error whose text quotes it
  | @assign target value target' value' htarget hvalue scope s s' =>
    have hquote : R.simulation.quote target.print target'.print := ⟨_, _, htarget, rfl, rfl⟩
    cases hpipes with
    | assign ht hv =>
      have hcode := h.of_part (by simp [Expr.parts]) hvalue hv
      cases htarget with
      | sym hsym at_ at' =>
        cases ht with
        | sym hname =>
          obtain rfl := eq_of_symbol hsym hname
          exact .assign _ hcode scope at_ at' s s'
      | _ => exact .badAssign (by simp) (by simp) hquote _ _ scope s s'
  | call hfunc hargs s s' =>
    cases hpipes with
    | call hf ha =>
      exact .call (h.of_part (by simp [Expr.parts]) hfunc hf)
        (h.of_parts (fun _ hmem => List.mem_cons_of_mem _ hmem) hargs ha) s s'
    | pipe op hleft hright hplain at_ =>
      cases hfunc with
      | sym hsym _ at' =>
        -- the callee of an infix pipe is the only symbol that may differ
        obtain ⟨op', hop, rfl⟩ := exists_operator_of_symbol hR hsym
        cases hargs with
        | cons hl hrest =>
          cases hrest with
          | cons hr hnil =>
            cases hnil
            refine .operate hop (h.of_part (by simp [Expr.parts]) hl hleft)
              (h.of_part (by simp [Expr.parts]) hr hright) hplain (fun hkind => ?_) at_ at' s s'
            refine ⟨hl, hleft, fun hown name hname => h.sets hown name ?_⟩
            -- only a compound pipe has a target
            obtain rfl : op = .compound := by cases op <;> cases hkind; rfl
            exact sets_of_targetName hname

/-! ### The simulation is sound -/

theorem global_ne_builtin : globalFrame ≠ builtinFrame := by decide

/-- A frame made by the program is neither the global one nor that of the builtins. -/
theorem ne_of_two_le {m : Nat} (h : 2 ≤ m) : (⟨m⟩ : FrameId) ≠ globalFrame ∧
    (⟨m⟩ : FrameId) ≠ builtinFrame := by
  constructor <;> rintro ⟨⟩ <;> exact absurd h (by decide)

/-- A name outside of the builtins' frame is bound to a value. -/
theorem slot_value {frame : FrameId} (hframe : frame ≠ builtinFrame) (hname : NoPipe name)
    (hallowed : frame = globalFrame → R.allowed name) {v v' : Value}
    (hv : R.simulation.value w v v') : R.Slot w frame name (.value v) (.value v') :=
  .other hframe hname (fun hglobal => .inl (hallowed hglobal)) (.value hv)

/-- Programs do not assign to operators. -/
theorem noPipe_of_assign {target value value' : Expr} {scope : AssignScope} {at_ s s' : Span}
    (h : R.CodeIn env (.assign (.sym name at_) value scope s) (.assign target value' scope s')) :
    NoPipe name := by
  cases h.pipes with
  | assign ht _ =>
    cases ht with
    | sym hname => exact hname

/-- Worlds are never left for other ones: a chain that is run in the global frame ends where it
began. -/
theorem worlds_simulation (R : Rules) : R.simulation.Worlds where
  refl _ := rfl
  trans h h' := Eq.trans h h'
  env _ h := h
  code _ _ _ _ _ _ h := h
  closure _ _ _ h := h
  exceptional _ _ _ _ _ _ h := h
  target _ _ _ _ _ _ h := h
  slot frame name := by
    rintro w _ ⟨⟩ b b' h
    exact h
  thunk _ _ _ h := h
  ref _ _ _ h := h
  le_resize _ _ := rfl
  sized_resize h hz := Nat.le_trans h hz.frames
  thunk_of_resize _ _ h _ := h
  ref_of_resize _ _ h _ := h

/-- Deferred values and spliced values have the same identities in both programs. -/
theorem numbered_simulation (R : Rules) : R.simulation.Numbered where
  thunk_unique := by
    rintro w id _ other _ ⟨⟩ ⟨⟩
    rfl
  thunk_lt_iff := by
    rintro w m _ id _ ⟨⟩ ⟨⟩
    rfl
  thunk_next _ h := congrArg ThunkId.mk h
  thunks_succ h := congrArg (· + 1) h
  ref_lt_iff := by
    rintro w m _ ref _ ⟨⟩ ⟨⟩
    rfl
  ref_next _ h := congrArg InlineRef.mk h
  refs_succ h := congrArg (· + 1) h
  lone_push _ _ _ := trivial
  lone_set _ _ _ := trivial
  lone_inline _ := trivial

/-- What must be known of each form of code is known of its parts: they are alike, their pipes are
infix, and they set nothing but what is allowed. -/
theorem sound_simulation (hR : R.Fit) : R.simulation.Sound where
  toWorlds := worlds_simulation R
  toNumbered := numbered_simulation R
  forms _ h := forms hR h
  print h := ⟨_, _, h.alike, rfl, rfl⟩
  operatorName h hop := by
    cases h.pipes with
    | sym hname =>
      rw [hname.1] at hop
      cases hop
  kind h := hR.kind h
  isLazy henv h := by
    rw [henv.mode]
    exact hR.isLazy h
  targetName _ h := targetName_alike h.alike h.pipes
  targetOfFree h _ := absurd h id
  step h hplain kind := by
    -- pipe operators are no values here, so that the right side is plain for the first reason
    have hplain := hplain.resolve_right id
    exact {
      alike := h.alike.step fits_variation kind
      pipes := h.pipes.step hplain kind
      outer := fun hout => h.outer (Expr.reassigns_of_step hout)
      sets := fun hown name hname => h.sets hown name (hname.of_step hplain) }
  lambda henv h id := by
    cases h.pipes with
    | lambda hparams hp =>
      cases h.alike with
      | lambda _ hbody =>
        exact ⟨rfl, henv, hparams, hbody, hp, fun hout => h.outer (Expr.has_of_body hout)⟩
  stepClosure henv h _ := ⟨rfl, henv, by simpa using noPipe_placeholder, h.toCode⟩
  closureEnv h := ⟨h.env, h.met⟩
  closureNames h := h.params
  placeholderName := noPipe_placeholder
  body hsized h := .of_code h.body (ne_of_two_le hsized).1
  within hsized h := ⟨h.inside.within (ne_of_two_le hsized).2, h.mode⟩
  codeWithin hsized _ h := .of_code h.toCode (ne_of_two_le hsized).1
  inline h := by
    cases h.alike with
    | inline label href => exact ⟨rfl, href⟩
  nowhere := trivial
  spliced {w v v' ref ref'} hv href {env} _ {at_ at'} _ := by
    obtain rfl : ref = ref' := href
    rw [hv.show_eq]
    exact {
      alike := .inline _ rfl _ _
      pipes := .inline _ _ _
      outer := nofun
      sets := fun _ _ hname => absurd hname (Expr.not_sets_of_no_parts rfl id) }
  -- a new frame is neither the global one nor that of the builtins
  slotNew {w u z name b b'} hsized _ hname hreads :=
    .other (ne_of_two_le hsized).2 hname (fun heq => absurd heq (ne_of_two_le hsized).1) hreads
  slotAssign henv h hv := slot_value henv.inside.own (noPipe_of_assign h)
    (fun hown => h.sets hown _ (Expr.sets_iff.2 (.inl rfl))) hv
  slotOuter {w env frame name at_ at' e e' at₁ at₁' v v'} henv h hframe hv := by
    -- an assignment to an outer variable may meet the global frame, but only if the rules allow
    -- such assignments
    have hout : R.outer := h.outer (Expr.has_of_test rfl)
    refine slot_value ?_ (noPipe_of_assign h) (fun _ => hR.allowed hout name) hv
    rcases hframe with hmem | ⟨-, rfl⟩
    · rintro rfl
      exact henv.inside.outer hmem
    · exact henv.inside.own
  slotTarget {w env e e' name v v'} henv h hname hv := by
    refine slot_value henv.inside.own ?_ (fun hown => h.sets hown name hname) hv
    have hpipes := h.pipes
    cases e with
    | sym target s =>
      rw [Expr.targetName] at hname
      split at hname
      · cases hname
      · cases hname
        cases hpipes with
        | sym h => exact h
    | _ => cases hname

/-! ### Names -/

/-- A builtin that is no pipe operator. -/
theorem value_of_rootBindings {b : Binding} (hname : PipeOp.ofName? name = none)
    (h : rootBindings.get? name = some b) :
    ∃ v, b = .value v ∧ R.simulation.value w v v := by
  rcases List.mem_append.1 (Fields.mem_of_mem_ofList (Fields.mem_of_get? h)) with hmem | hmem
  · obtain ⟨n, -, heq⟩ := List.mem_map.1 hmem
    cases heq
    exact ⟨_, rfl, .native n⟩
  · obtain ⟨special, -, heq⟩ := List.mem_map.1 hmem
    cases heq
    refine ⟨_, rfl, .special (.inr ?_)⟩
    rintro op rfl
    exact ofName?_eq_none_iff.1 hname op rfl

/-- A name is looked up in both programs with the same result, since it is no operator. -/
theorem lookups (hR : R.Fit) {ev other : Evaluator} (hev : R.simulation.Agree ev other) :
    R.simulation.Lookups ev other := by
  intro w env name at_ at' _ hcode
  have hname : NoPipe name := by
    cases hcode.pipes with
    | sym hname => exact hname
  refine Simulation.Relates.lookup (worlds_simulation R) ?_
  intro s s' _ frame key b b' hfound _ hslot
  cases hslot with
  | builtin hframe hb =>
    have hkey : PipeOp.ofName? key = none := by
      rcases hfound with ⟨hbare, -⟩ | ⟨-, rfl, -⟩
      · exact hname.2 key hbare
      · exact hname.1
    obtain ⟨v, rfl, hv⟩ := value_of_rootBindings hkey hb
    exact Simulation.Relates.pure (worlds_simulation R) hv
  | other _ _ _ h => exact hev.forceBinding (sound_simulation hR) h

/-- A name that only the root frame binds is found there. -/
theorem find?_of_root {s : Store} {b : Binding}
    (hroot : s.binding? env.rootFrame name = some b)
    (hother : ∀ frame, frame ≠ env.rootFrame → s.binding? frame name = none) :
    s.find? env name = some b := by
  have hmem : env.rootFrame ∈ env.visible := List.getLast_mem _
  rcases hfind : s.find? env name with _ | found
  · rw [Store.find?, List.findSome?_eq_none_iff] at hfind
    rw [hfind _ hmem] at hroot
    cases hroot
  · obtain ⟨frame, -, hframe⟩ := List.exists_of_findSome?_eq_some hfind
    by_cases heq : frame = env.rootFrame
    · rw [heq, hroot] at hframe
      exact hframe.symm
    · rw [hother frame heq] at hframe
      cases hframe

/-- An operator is bound in the frame of the builtins alone, so that a lookup finds it there. -/
theorem lookup_operator {s : Store} (henv : R.Met env) (op : PipeOp)
    (hbound : ∀ frame, s.binding? frame op.name =
      if frame = builtinFrame then some (.value (.special (.pipe op))) else none)
    (ev : Evaluator) : ev.lookup env op.name s = (.ok (.special (.pipe op)), s) := by
  have hroot := henv.inside.rootFrame
  have hfind : s.find? env op.name = some (.value (.special (.pipe op))) := by
    refine find?_of_root ?_ fun frame hframe => ?_
    · rw [hbound, if_pos hroot]
    · rw [hbound, if_neg fun h => hframe (h.trans hroot.symm)]
  have hplain : unqualified? op.name = none := by cases op <;> rfl
  have hresolve : s.resolve env op.name = .ok (.value (.special (.pipe op))) := by
    simp only [Store.resolve, hplain, hfind, Store.resolve.toExcept]
  rw [ev.lookup_of_resolve hresolve]
  rfl

/-- Where the pipe operators are bound. -/
theorem binding?_operator {s s' : Store} (hs : R.simulation.Corresponds w s s') (op : PipeOp)
    (frame : FrameId) :
    s.binding? frame op.name =
        (if frame = builtinFrame then some (.value (.special (.pipe op))) else none) ∧
      s'.binding? frame op.name =
        (if frame = builtinFrame then some (.value (.special (.pipe op))) else none) := by
  have hroot : rootBindings.get? op.name = some (.value (.special (.pipe op))) :=
    get?_rootBindings_special (.pipe op)
  have hrel := hs.bindings frame op.name
  by_cases hframe : frame = builtinFrame
  -- the builtins' frame still binds the operator, since what it binds is kept
  · have hkept := hs.kept frame op.name ⟨hframe, by rw [hroot]; rfl⟩
    rw [if_pos hframe]
    generalize s.binding? frame op.name = x at hrel hkept ⊢
    generalize s'.binding? frame op.name = y at hrel ⊢
    cases hrel with
    | none => cases hkept
    | some hslot =>
      cases hslot with
      | builtin _ h =>
        rw [← hroot, h]
        exact ⟨rfl, rfl⟩
      | other hne => exact absurd hframe hne
  · rw [if_neg hframe]
    generalize s.binding? frame op.name = x at hrel ⊢
    generalize s'.binding? frame op.name = y at hrel ⊢
    cases hrel with
    | none => exact ⟨rfl, rfl⟩
    | some hslot =>
      cases hslot with
      | builtin h => exact absurd h hframe
      -- no other frame binds an operator
      | other _ hname => exact absurd rfl (ofName?_eq_none_iff.1 hname.1 op)

/-- The symbol of an operator refers to it, in both programs. -/
theorem operators (R : Rules) (ev other : Evaluator) : R.simulation.Operators ev other := by
  intro w env op op' henv _ s s' hs
  rw [lookup_operator henv op (fun frame => (binding?_operator hs op frame).1),
    lookup_operator henv op' (fun frame => (binding?_operator hs op' frame).2)]
  exact .inr ⟨w, rfl, hs, .ok ⟨rfl, rfl⟩⟩

/-! ### Chains -/

/-- Where the placeholder may be bound. -/
theorem rebinds (henv : R.Met env) (h : env.own = globalFrame → w = true) :
    R.simulation.Rebinds w env := by
  rintro w _ _ ⟨⟩ hv
  exact .other henv.inside.own noPipe_placeholder (fun hown => .inr ⟨h hown, rfl⟩) (.value hv)

/-- How far deferred values are evaluated is the same in both worlds. -/
theorem state_of_state {w' : Bool} {t t' : Thunk} (h : R.simulation.State w t t') :
    R.simulation.State w' t t' := by
  cases h with
  | pending henv h => exact .pending henv h
  | exceptional h => exact .exceptional h
  | evaluating => exact .evaluating
  | forced h => exact .forced h

/-- What corresponds still does so while a chain is run in the global frame. -/
theorem corresponds_running {s s' : Store} (h : R.simulation.Corresponds w s s') :
    R.simulation.Corresponds true s s' :=
  { h with
    bindings := fun frame name => Simulation.optionRel_mono (fun b b' hslot => by
      cases hslot with
      | builtin hframe hb => exact .builtin hframe hb
      | other hframe hname hglobal hb =>
        exact .other hframe hname (fun heq => (hglobal heq).imp id fun h => ⟨rfl, h.2⟩) hb)
      (h.bindings frame name)
    thunks := fun id id' hid =>
      Simulation.optionRel_mono (fun _ _ => state_of_state) (h.thunks id id' hid) }

/-- Once the placeholder is bound as before, everything corresponds as before. -/
theorem corresponds_of_running {s s' t t' : Store} (hs : R.simulation.Corresponds w s s')
    (ht : R.simulation.Corresponds true t t')
    (hback : t.binding? globalFrame placeholder = s.binding? globalFrame placeholder) :
    R.simulation.Corresponds w t t' :=
  { ht with
    bindings := fun frame name => by
      have hbefore := hs.bindings frame name
      have hafter := ht.bindings frame name
      rcases hx : t.binding? frame name with _ | b <;>
        rcases hy : t'.binding? frame name with _ | b' <;> rw [hx, hy] at hafter
      · exact .none
      · cases hafter
      · cases hafter
      · cases hafter with
        | some hslot =>
          refine .some ?_
          cases hslot with
          | builtin hframe hb => exact .builtin hframe hb
          | other hframe hname hglobal hb =>
            refine .other hframe hname (fun heq => ?_) hb
            refine (hglobal heq).elim .inl fun hrunning => ?_
            -- the placeholder was bound before
            obtain rfl := heq
            obtain rfl := hrunning.2
            rw [← hback, hx] at hbefore
            generalize s'.binding? globalFrame placeholder = y at hbefore
            cases hbefore with
            | some hslot =>
              cases hslot with
              | builtin hframe => exact absurd hframe global_ne_builtin
              | other _ _ hold => exact hold rfl
    thunks := fun id id' hid =>
      Simulation.optionRel_mono (fun _ _ => state_of_state) (ht.thunks id id' hid) }

/-- A chain that is run step by step in the global frame. -/
theorem evalEager_global (hR : R.Fit) {ev other : Evaluator} (hev : R.simulation.Agree ev other)
    (henv : R.Met env) (hown : env.own = globalFrame) {es es' : List Expr}
    (hes : List.Forall₂ (R.CodeIn env) es es') :
    R.simulation.Relates w R.simulation.value (ev.evalEager env es) (other.evalEager env es') := by
  intro s s' hs
  have hrun := hev.evalEager (sound_simulation hR) (rebinds henv fun _ => rfl) henv hes s s'
    (corresponds_running hs)
  obtain ⟨w', hw', hafter, hend⟩ := hrun.of_not_lost (fun _ h => h) (fun h => h) fun h => h
  obtain rfl : true = w' := hw'
  refine .inr ⟨w, rfl, corresponds_of_running hs hafter ?_, hend⟩
  have hsize : globalFrame.index < ((ev.evalSteps env es s).2).frames.size := by
    have hsized : 2 ≤ ((ev.evalEager env es s).2).frames.size := hafter.sized
    have hsame : ((ev.evalEager env es s).2).frames.size =
        ((ev.evalSteps env es s).2).frames.size := Store.size_frames_rebind _ _ _ _
    rw [hsame] at hsized
    exact hsized
  rw [← hown]
  exact Store.binding?_rebind_self fun _ => by rw [hown]; exact hsize

/-- A chain is run step by step in both programs, in the global frame or in another one. -/
theorem chains (hR : R.Fit) {ev other : Evaluator} (hev : R.simulation.Agree ev other) :
    R.simulation.Chains ev other := by
  intro w env es es' henv hes
  by_cases hown : env.own = globalFrame
  · exact evalEager_global hR hev henv hown hes
  · exact hev.evalEager (sound_simulation hR) (rebinds henv fun h => absurd h hown) henv hes

/-! ### Runs -/

/-- Evaluations to the same nesting agree. -/
theorem agree_level (hR : R.Fit) (n : Nat) :
    R.simulation.Agree (Evaluator.level n) (Evaluator.level n) := by
  induction n with
  | zero => exact Simulation.agree_idle (worlds_simulation R)
  | succ n ih =>
    refine ih.step (sound_simulation hR) (lookups hR ih) (operators R _ _) (chains hR ih) ?_
    exact fun h => h.elim

/-! ### From the start -/

theorem met_globalEnv (R : Rules) : R.Met (globalEnv R.mode).1 := ⟨(rooted_globalEnv R.mode).1, rfl⟩

/-- A fresh environment corresponds to itself: it has two frames, and only the builtins are bound.
-/
theorem corresponds_globalEnv (R : Rules) :
    R.simulation.Corresponds false (globalEnv R.mode).2 (globalEnv R.mode).2 where
  sized := Nat.le_refl 2
  frames := rfl
  bindings frame name := by
    -- the frames are made one after the other, so that the bindings are read off from the second
    -- one down
    have hbinding : (globalEnv R.mode).2.binding? frame name =
        if frame = globalFrame then none
        else if frame = builtinFrame then rootBindings.get? name else none := by
      refine (Store.binding?_addFrame _ _ _ _).trans ?_
      refine if_congr Iff.rfl rfl ((Store.binding?_addFrame _ _ _ _).trans ?_)
      refine if_congr Iff.rfl rfl ?_
      simp [Store.binding?, Store.bindings, Store.empty, Fields.get?]
    rw [hbinding]
    split
    · exact .none
    · split
      · next hframe => exact Simulation.optionRel_self fun _ hb => .builtin hframe hb
      · exact .none
  kept frame name := by
    rintro ⟨rfl, hname⟩
    exact hname
  thunks id _ _ := by
    have hnone : (globalEnv R.mode).2.thunks = #[] := rfl
    rw [Store.thunk?, Store.thunk?, hnone, Array.getElem?_empty, Array.getElem?_empty]
    exact .none
  thunkSizes := rfl
  inlines ref _ _ := by
    have hnone : (globalEnv R.mode).2.inlines = #[] := rfl
    rw [Store.inline?, Store.inline?, hnone, Array.getElem?_empty, Array.getElem?_empty]
    exact .none
  inlineSizes := rfl
  lone := trivial
  functions := rfl
  depth := rfl
  printed := rfl

/-- Two programs that are run from the start end alike. -/
theorem ends_program (hR : R.Fit) (n : Nat) {program other : List Expr}
    (hcode : List.Forall₂ (R.CodeIn (globalEnv R.mode).1) program other) :
    R.simulation.Corresponds false
        ((Evaluator.level n).evalStatements (globalEnv R.mode).1 program (globalEnv R.mode).2).2
        ((Evaluator.level n).evalStatements (globalEnv R.mode).1 other (globalEnv R.mode).2).2 ∧
      Outcome.Alike (EvalError.Alike R.variation.Quotes) (Value.Like R.likeness)
        ((Evaluator.level n).evalStatements (globalEnv R.mode).1 program (globalEnv R.mode).2).1
        ((Evaluator.level n).evalStatements (globalEnv R.mode).1 other (globalEnv R.mode).2).1 := by
  have hrun := (agree_level hR n).evalStatements (w := false) (worlds_simulation R)
    (met_globalEnv R) hcode _ _ (corresponds_globalEnv R)
  obtain ⟨w', hw', hstore, hend⟩ := hrun.of_not_lost (fun _ h => h) (fun h => h) fun h => h
  obtain rfl : false = w' := hw'
  exact ⟨hstore, hend⟩

end Rules

end PipeLang
