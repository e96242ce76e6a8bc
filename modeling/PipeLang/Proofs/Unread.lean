import PipeLang.Proofs.Parameters
import PipeLang.Proofs.Placement
import PipeLang.Proofs.Stages
import PipeLang.Proofs.Targets

/-!
# Expressions that nothing reads

In a chain that is evaluated on demand, let a step call a closure on the placeholder that never
reads its parameter.  Then nothing reads the expressions before the step.  They wait in stages that
are visible to all that follows, but only from within the stage of the step itself, which binds the
placeholder again; and to the step, which hands the placeholder over to the parameter.

`Unread.simulation` relates two runs of such a chain that differ in these expressions.  Code that is
evaluated sees the stages only beyond that frame (`Unread.Met`), and what sees the frame of a call
of the closure does not mention its parameter (`Unread.Ignores`).  So the deferred values of the
stages and of these parameters are never demanded, and all other ones are the same in both runs.

Whether the closure ignores its parameter is asked whenever the step is evaluated, of the value that
its name has then: later steps may have assigned another one.
-/

namespace PipeLang

/-- In the environment the name refers to the value, and no evaluation is needed for that. -/
def Store.RefersTo (s : Store) (env : Env) (name : String) (v : Value) : Prop :=
  s.resolve env name = .ok (.value v) ∨
    ∃ id, s.resolve env name = .ok (.deferred id) ∧ s.thunk? id = some (.forced v)

/-- The name refers to a closure whose one parameter, other than the placeholder, does not occur in
its body. -/
def Store.IgnoresArgument (s : Store) (env : Env) (name : String) : Prop :=
  ∃ c param, s.RefersTo env name (.closure c) ∧ c.params = [param] ∧ param ≠ placeholder ∧
    c.body.mentions param = false

/-- A chain with a step that ignores what arrives, in two runs with different expressions before. -/
structure Unread where
  /-- Where the chain is evaluated. -/
  env : Env
  /-- How much was in the store before. -/
  base : Sizes
  lt_base : ∀ frame ∈ env.visible, frame.index < base.frames
  /-- The expressions before the step in the first run. -/
  first : List Expr
  first_ne_nil : first ≠ []
  /-- As many expressions in the second run. -/
  second : List Expr
  length_eq : second.length = first.length
  /-- The name that the step calls. -/
  name : String
  at_ : Span
  dot : Span
  span : Span
  /-- The steps that follow. -/
  after : List Expr
  /-- How the first run ends where the step would not ignore what arrives. -/
  alarm : Outcome EvalError Value
  alarm_ne_ok : ∀ v, alarm ≠ .ok v

namespace Unread

/-- A parameter of a call that the step has made. -/
structure Argument where
  frame : FrameId
  name : String
  id : ThunkId
  ne_placeholder : name ≠ placeholder

/-- How much there is, and the parameters of the calls so far. -/
structure World where
  sizes : Sizes
  arguments : List Argument

/-- There is no less of anything, and the parameters that have been added are new. -/
structure World.Le (w w' : World) : Prop where
  sizes : w.sizes.Le w'.sizes
  kept : ∀ a ∈ w.arguments, a ∈ w'.arguments
  new : ∀ a ∈ w'.arguments, a ∈ w.arguments ∨
    w.sizes.frames ≤ a.frame.index ∧ w.sizes.thunks ≤ a.id.index

/-- The call of the name on the placeholder. -/
def step (U : Unread) : Expr := .call (.sym U.name U.at_) [.sym placeholder U.dot] U.span

/-- The environment after so many stages. -/
def stage (U : Unread) (count : Nat) : Env := U.env.stages U.base.frames count

/-- The environment of the step. -/
def scope (U : Unread) : Env := U.stage U.first.length

/-- The frame of the step's own stage. -/
def guard (U : Unread) : FrameId := ⟨U.base.frames + U.first.length⟩

variable (U : Unread)

/-- The frame belongs to the stage of an expression before the step. -/
def IsStage (frame : FrameId) : Prop :=
  U.base.frames ≤ frame.index ∧ frame.index < U.base.frames + U.first.length

/-- So does the deferred value. -/
def IsWaiting (id : ThunkId) : Prop :=
  U.base.thunks ≤ id.index ∧ id.index < U.base.thunks + U.first.length

/-- The expressions wait in their stages. -/
def Waits (es : List Expr) (thunks : Array Thunk) : Prop :=
  ∀ i e, es[i]? = some e → thunks[U.base.thunks + i]? = some (.pending e (U.stage i))

/-- The deferred values of the two runs are the same, but for the expressions that wait. -/
structure Apart (thunks thunks' : Array Thunk) : Prop where
  first : U.Waits U.first thunks
  second : U.Waits U.second thunks'
  size : thunks'.size = thunks.size
  same : ∀ id, ¬ U.IsWaiting id → thunks'[id.index]? = thunks[id.index]?

/-- The world is for so much, and all that belongs to the stages and the calls is there. -/
structure Sized (w : World) (z : Sizes) : Prop where
  eq : w.sizes = z
  frames : U.base.frames + U.first.length ≤ z.frames
  thunks : U.base.thunks + U.first.length ≤ z.thunks
  argument : ∀ a ∈ w.arguments, U.base.frames + U.first.length ≤ a.frame.index ∧
    a.frame.index < z.frames ∧ a.id.index < z.thunks

/-- The environment sees stages only beyond the frame of the step's own stage. -/
structure Met (w : World) (env : Env) : Prop where
  root : env.rootFrame.index < U.base.frames
  frames : w.sizes.HasFrames env
  shielded : ∀ before frame after, env.visible = before ++ frame :: after → U.IsStage frame →
    U.after ≠ [] ∧ U.guard ∈ before

/-- The expression does not mention the parameters that are visible. -/
structure Ignores (w : World) (env : Env) (e : Expr) : Prop where
  frames : w.sizes.HasFrames env
  unread : ∀ a ∈ w.arguments, a.frame ∈ env.visible → unqualified? a.name = none →
    e.mentions a.name = false

/-- A closure that may be called. -/
structure Called (w : World) (c c' : Closure) : Prop where
  eq : c' = c
  met : U.Met w c.env
  ignores : Ignores w c.env c.body

/-- Values with such closures. -/
def likeness (w : World) : Likeness where
  closure := U.Called w
  special s := True ∨ ∀ op, s ≠ .pipe op

/-- The deferred values that may be demanded. -/
structure Demanded (w : World) (id id' : ThunkId) : Prop where
  eq : id' = id
  lt : id.index < w.sizes.thunks
  stage : ¬ U.IsWaiting id
  argument : ∀ a ∈ w.arguments, a.id ≠ id

/-- What a name is bound to: the same in both runs. -/
inductive Slot (w : World) (frame : FrameId) (name : String) : Binding → Binding → Prop
  | same {b b' : Binding} (h : Binding.Alike (U.likeness w) (U.Demanded w) b b') :
      Slot w frame name b b'
  /-- The placeholder in a stage. -/
  | stage (hframe : U.IsStage frame) (hname : name = placeholder) {id : ThunkId}
      (hid : id.index = U.base.thunks + (frame.index - U.base.frames)) :
      Slot w frame name (.deferred id) (.deferred id)
  /-- The parameter of a call. -/
  | argument {a : Argument} (h : a ∈ w.arguments) (hframe : a.frame = frame)
      (hname : a.name = name) : Slot w frame name (.deferred a.id) (.deferred a.id)

/-- The two runs side by side. -/
def simulation : Simulation where
  World := World
  le := World.Le
  sized := U.Sized
  resize w z := { w with sizes := z }
  env := U.Met
  code w env e e' := e' = e ∧ Ignores w env e
  closure := U.Called
  slot := U.Slot
  exceptional _ env e e' := env = U.scope ∧ e = U.step ∧ e' = U.step
  kept frame name := U.after ≠ [] ∧ frame = U.guard ∧ name = placeholder
  thunk := U.Demanded
  lone thunks thunks' _ := U.Apart thunks thunks'
  span := Eq
  mayFail e := U.alarm = .error e
  firstMayGiveUp := U.alarm = .outOfFuel

variable {U} {w w' : World} {z : Sizes} {env : Env} {e : Expr}

/-! ### The simulation is sound -/

theorem Sized.resize (h : U.Sized w z) {z' : Sizes} (hz : z.Le z') :
    U.Sized { w with sizes := z' } z' where
  eq := rfl
  frames := Nat.le_trans h.frames hz.frames
  thunks := Nat.le_trans h.thunks hz.thunks
  argument a ha := by
    obtain ⟨hnew, hframe, hid⟩ := h.argument a ha
    exact ⟨hnew, Nat.lt_of_lt_of_le hframe hz.frames, Nat.lt_of_lt_of_le hid hz.thunks⟩

theorem World.le_resize (w : World) {z' : Sizes} (hz : w.sizes.Le z') :
    w.Le { w with sizes := z' } := ⟨hz, fun _ h => h, fun _ h => .inl h⟩

/-- Environments that are met stay so in later worlds. -/
theorem Met.of_le (hle : w.Le w') (h : U.Met w env) : U.Met w' env where
  root := h.root
  frames := h.frames.of_le hle.sizes
  shielded := h.shielded

/-- Code that ignores the parameters of a world ignores those of later ones, as far as it can see
them. -/
theorem Ignores.of_le (hle : w.Le w') (h : Ignores w env e) : Ignores w' env e where
  frames := h.frames.of_le hle.sizes
  unread a ha hsees := by
    rcases hle.new a ha with hold | ⟨hnew, -⟩
    · exact h.unread a hold hsees
    · exact absurd (h.frames a.frame hsees) (Nat.not_lt.2 hnew)

theorem Called.of_le (hle : w.Le w') {c c' : Closure} (h : U.Called w c c') : U.Called w' c c' :=
  ⟨h.eq, h.met.of_le hle, h.ignores.of_le hle⟩

theorem like_of_le (hle : w.Le w') {v v' : Value} (h : v.Like (U.likeness w) v') :
    v.Like (U.likeness w') v' := by
  have hclosure : ∀ c c', (U.likeness w).closure c c' → (U.likeness w').closure c c' :=
    fun _ _ hc => Called.of_le hle hc
  exact Value.Like.mono hclosure (fun _ h => h) (fun _ h => h) h

theorem Demanded.of_le (hle : w.Le w') {id id' : ThunkId} (h : U.Demanded w id id') :
    U.Demanded w' id id' where
  eq := h.eq
  lt := Nat.lt_of_lt_of_le h.lt hle.sizes.thunks
  stage := h.stage
  argument a ha := by
    rcases hle.new a ha with hold | ⟨-, hnew⟩
    · exact h.argument a hold
    · rintro rfl
      exact absurd h.lt (Nat.not_lt.2 hnew)

/-- A binding that corresponds stays so, an argument included. -/
theorem Slot.of_le (hle : w.Le w') {frame : FrameId} {name : String} {b b' : Binding}
    (h : U.Slot w frame name b b') : U.Slot w' frame name b b' := by
  cases h with
  | same h =>
    cases h with
    | value hv => exact .same (.value (like_of_le hle hv))
    | deferred hid => exact .same (.deferred (hid.of_le hle))
  | stage hframe hname hid => exact .stage hframe hname hid
  | argument h hframe hname => exact .argument (hle.kept _ h) hframe hname

/-- Later than later is later. -/
theorem World.Le.trans {u v w : World} (huv : u.Le v) (hvw : v.Le w) : u.Le w where
  sizes := huv.sizes.trans hvw.sizes
  kept a ha := hvw.kept a (huv.kept a ha)
  new a ha := by
    rcases hvw.new a ha with hold | ⟨hframe, hid⟩
    · exact huv.new a hold
    · exact .inr ⟨Nat.le_trans huv.sizes.frames hframe, Nat.le_trans huv.sizes.thunks hid⟩

/-- A world knows the calls of the step so far, and of each call the frame and the deferred
argument. -/
theorem worlds_simulation (U : Unread) : U.simulation.Worlds where
  refl w := ⟨.refl w.sizes, fun _ h => h, fun _ h => .inl h⟩
  trans h h' := h.trans h'
  env hle h := Met.of_le hle h
  code _ _ _ hle _ _ h := ⟨h.1, h.2.of_le hle⟩
  closure hle _ _ h := Called.of_le hle h
  exceptional _ _ _ _ _ _ h := h
  target _ _ _ hle _ _ h := ⟨h.1, h.2.of_le hle⟩
  slot _ _ _ _ hle _ _ h := Slot.of_le hle h
  thunk hle _ _ h := Demanded.of_le hle h
  ref _ _ _ h := h
  le_resize {w _ _} hsized hz := w.le_resize (hsized.eq ▸ hz)
  sized_resize hsized hz := hsized.resize hz
  thunk_of_resize hsized _ h hlt := ⟨h.eq, hsized.eq ▸ hlt, h.stage, h.argument⟩
  ref_of_resize _ _ h _ := h

/-- What is demanded is no stage, so the expressions go on waiting. -/
theorem Waits.set {es : List Expr} (hes : es.length = U.first.length) {thunks : Array Thunk}
    (h : U.Waits es thunks) {id id' : ThunkId} (hid : U.Demanded w id id') (t : Thunk) :
    U.Waits es (thunks.setIfInBounds id.index t) := by
  intro i e hi
  have hlt : i < U.first.length := hes ▸ (List.getElem?_eq_some_iff.1 hi).1
  have hne : id.index ≠ U.base.thunks + i := by
    intro heq
    exact hid.stage ⟨by omega, by omega⟩
  rw [Array.getElem?_setIfInBounds_ne hne]
  exact h i e hi

/-- What waits goes on to wait when something new is deferred. -/
theorem Waits.push {es : List Expr} {thunks : Array Thunk} (h : U.Waits es thunks) (t : Thunk) :
    U.Waits es (thunks.push t) := by
  intro i e hi
  have hold := h i e hi
  rw [Array.getElem?_push, if_neg, hold]
  exact Nat.ne_of_lt (Array.getElem?_eq_some_iff.1 hold).1

theorem eq_of_like {v v' : Value} (h : v.Like (U.likeness w) v') : v' = v :=
  (h.eq_of_closures fun _ _ _ hc => hc.eq.symm).symm

/-- Deferred values that correspond are equal, since only the steps differ. -/
theorem eq_of_state {t t' : Thunk} (h : U.simulation.State w t t') : t' = t := by
  cases h with
  | pending _ he => rw [he.1]
  | exceptional he => rw [he.2.1, he.2.2]
  | evaluating => rfl
  | forced hv => rw [eq_of_like hv]

namespace Apart

variable {thunks thunks' : Array Thunk}

/-- Stores that differ in the steps alone go on to do so. -/
theorem push (h : U.Apart thunks thunks') (t : Thunk) :
    U.Apart (thunks.push t) (thunks'.push t) where
  first := h.first.push t
  second := h.second.push t
  size := by rw [Array.size_push, Array.size_push, h.size]
  same id hid := by rw [Array.getElem?_push, Array.getElem?_push, h.size, h.same id hid]

/-- So they do when a value is set that is demanded. -/
theorem set (h : U.Apart thunks thunks') {id id' : ThunkId} (hid : U.Demanded w id id')
    (t : Thunk) :
    U.Apart (thunks.setIfInBounds id.index t) (thunks'.setIfInBounds id'.index t) where
  first := h.first.set rfl hid t
  second := by
    rw [hid.eq]
    exact h.second.set U.length_eq hid t
  size := by rw [Array.size_setIfInBounds, Array.size_setIfInBounds, h.size]
  same other hother := by
    rw [hid.eq, Array.getElem?_setIfInBounds, Array.getElem?_setIfInBounds, h.size,
      h.same other hother]

end Apart

/-- Every identity stands for itself. -/
theorem numbered_simulation (U : Unread) : U.simulation.Numbered where
  thunk_unique h h' := by rw [h.eq, h'.eq]
  thunk_lt_iff := by
    rintro _ m _ id _ rfl h
    rw [h.eq]
  thunk_next := by
    rintro w z _ hsized rfl
    refine ⟨rfl, Nat.lt_succ_self _, fun h => ?_, fun a ha heq => ?_⟩
    · exact absurd h.2 (Nat.not_lt.2 hsized.thunks)
    -- the new identity is none of the arguments, which are there already
    · have hlt := (hsized.argument a ha).2.2
      rw [heq] at hlt
      exact Nat.lt_irrefl _ hlt
  thunks_succ h := congrArg (· + 1) h
  ref_lt_iff := by
    rintro w m _ ref _ rfl rfl
    rfl
  ref_next := by
    rintro w z _ - rfl
    rfl
  refs_succ h := congrArg (· + 1) h
  lone_push {_ _ _ _ t _} _ ht h := by
    rw [eq_of_state ht]
    exact h.push t
  lone_set {_ _ _ _ _ _ t _} hid ht h := by
    rw [eq_of_state ht]
    exact h.set hid t
  lone_inline h := h

/-! #### Code -/

/-- To mention less is to ignore more. -/
theorem Ignores.of_has {e' : Expr} (h : Ignores w env e)
    (hhas : ∀ name, e'.mentions name → e.mentions name) : Ignores w env e' where
  frames := h.frames
  unread a ha hsees hbare := Bool.eq_false_iff.2 fun hmentions =>
    Bool.eq_false_iff.1 (h.unread a ha hsees hbare) (hhas _ hmentions)

theorem Ignores.of_part (h : Ignores w env e) {part : Expr} (hpart : part ∈ e.parts) :
    Ignores w env part :=
  h.of_has fun _ => Expr.has_of_part hpart

/-- A step mentions what its operand does, and the placeholder, which is no parameter. -/
theorem Ignores.step (h : Ignores w env e) (kind : PipeKind) : Ignores w env (kind.step e) where
  frames := h.frames
  unread a ha hsees hbare := Bool.eq_false_iff.2 fun hmentions =>
    Bool.eq_false_iff.1 (h.unread a ha hsees hbare)
      (Expr.mentions_of_step a.ne_placeholder hbare hmentions)

/-! #### Environments -/

/-- A new frame is no stage and no frame of a call. -/
theorem Met.within (hsized : U.Sized w z) (h : U.Met w env) :
    U.Met { w with sizes := z.addFrame } (env.within ⟨z.frames⟩) where
  root := by
    rw [Env.rootFrame_within]
    exact h.root
  frames := (hsized.eq ▸ h.frames : z.HasFrames env).within
  shielded before frame after hvisible hstage := by
    rw [Env.visible_within] at hvisible
    rcases List.cons_eq_append_iff.1 hvisible with ⟨rfl, hcons⟩ | ⟨before, rfl, hrest⟩
    · obtain ⟨rfl, -⟩ := List.cons.inj hcons
      exact absurd hstage.2 (Nat.not_lt.2 hsized.frames)
    · obtain ⟨hafter, hguard⟩ := h.shielded before frame after hrest hstage
      exact ⟨hafter, List.mem_cons_of_mem _ hguard⟩

theorem Ignores.within (hsized : U.Sized w z) (h : Ignores w env e) :
    Ignores { w with sizes := z.addFrame } (env.within ⟨z.frames⟩) e where
  frames := (hsized.eq ▸ h.frames : z.HasFrames env).within
  unread a ha hsees := by
    rw [Env.visible_within] at hsees
    rcases List.mem_cons.1 hsees with heq | hsees
    · have hlt := (hsized.argument a ha).2.1
      rw [heq] at hlt
      exact absurd hlt (Nat.lt_irrefl _)
    · exact h.unread a ha hsees

/-- Code in both runs is the same; what has to be kept up is that it ignores the arguments that it
sees. -/
theorem sound_simulation (U : Unread) : U.simulation.Sound where
  toWorlds := worlds_simulation U
  toNumbered := numbered_simulation U
  forms _ h := by
    obtain ⟨rfl, h⟩ := h
    exact .self (fun _ => trivial) (fun _ => rfl) (fun _ => rfl) fun _ hpart =>
      ⟨rfl, h.of_part hpart⟩
  print h := congrArg Expr.print h.1.symm
  operatorName _ _ := trivial
  kind h := h.elim
  isLazy _ h := h.elim
  targetName _ h := by
    obtain ⟨rfl, -⟩ := h
    exact .self (fun _ => rfl) _
  targetOfFree _ h := h
  step h _ kind := ⟨congrArg kind.step h.1, h.2.step kind⟩
  lambda hmet h id := by
    obtain ⟨heq, h⟩ := h
    cases heq
    exact ⟨rfl, hmet, h.of_has fun _ => Expr.has_of_body⟩
  stepClosure hmet h id := by
    obtain ⟨rfl, h⟩ := h
    exact ⟨rfl, hmet, h⟩
  closureEnv h := ⟨congrArg Closure.env h.eq, h.met⟩
  closureNames _ _ _ := trivial
  placeholderName := trivial
  -- the body sees a new frame, which is not that of an argument
  body hsized h := by
    obtain ⟨rfl, -, h⟩ := h
    exact ⟨rfl, h.within hsized⟩
  within hsized h := h.within hsized
  codeWithin hsized _ h := ⟨h.1, h.2.within hsized⟩
  inline h := by
    obtain ⟨heq, -⟩ := h
    cases heq
    exact ⟨rfl, rfl⟩
  nowhere := rfl
  spliced {w v v' ref ref'} hv href {env} hmet {at_ at'} hspan := by
    obtain rfl : ref = ref' := href
    obtain rfl : at_ = at' := hspan
    rw [hv.show_eq]
    exact ⟨rfl, hmet.frames, fun _ _ _ _ => rfl⟩
  slotNew _ _ _ h := .same h
  slotAssign _ _ hv := .same (.value hv)
  slotOuter _ _ _ hv := .same (.value hv)
  slotTarget _ _ _ hv := .same (.value hv)

/-! ### Names -/

/-- Code that is evaluated reads neither the stages nor the parameters. -/
theorem lookups {ev other : Evaluator} (hev : U.simulation.Agree ev other) :
    U.simulation.Lookups ev other := by
  intro w env name at_ at' hmet hcode
  refine Simulation.Relates.lookup (worlds_simulation U) ?_
  intro s s' hs frame key b b' hfound _ hslot
  cases hslot with
  | same h => exact hev.forceBinding (sound_simulation U) h
  | stage hstage hname hid =>
    rcases hfound with ⟨-, rfl⟩ | ⟨-, rfl, before, after, hvisible, hbefore⟩
    · exact absurd hmet.root (Nat.not_lt.2 hstage.1)
    -- the step's own stage binds the placeholder nearer
    · obtain ⟨hafter, hguard⟩ := hmet.shielded before frame after hvisible hstage
      have hkept := hs.kept U.guard placeholder ⟨hafter, rfl, rfl⟩
      rw [← hname, hbefore U.guard hguard] at hkept
      cases hkept
  | @argument a ha hframe hname =>
    rcases hfound with ⟨-, rfl⟩ | ⟨hbare, rfl, before, after, hvisible, -⟩
    · have hnew := (hs.sized.argument a ha).1
      have hroot := hmet.root
      rw [hframe] at hnew
      omega
    · have hsees : a.frame ∈ env.visible := by
        rw [hframe, hvisible]
        simp
      have hunread := hcode.2.unread a ha hsees (hname ▸ hbare)
      rw [hname, Expr.mentions, Expr.has, Expr.isSym_sym, beq_self_eq_true] at hunread
      cases hunread

theorem chains {ev other : Evaluator} (hev : U.simulation.Agree ev other) :
    U.simulation.Chains ev other :=
  fun henv hes => hev.evalEager (sound_simulation U) (fun _ hv => .same (.value hv)) henv hes

/-! ### The step -/

theorem lt_of_mem_scope {frame : FrameId} (h : frame ∈ U.scope.visible) :
    frame.index < U.base.frames + U.first.length := by
  rcases Env.mem_visible_stages.1 h with hold | ⟨-, hlt⟩
  · exact Nat.lt_of_lt_of_le (U.lt_base frame hold) (Nat.le_add_right _ _)
  · exact hlt

theorem Waits.of_slot {es : List Expr} (hes : es.length = U.first.length) {thunks : Array Thunk}
    (h : U.Waits es thunks) {frame : FrameId} (hframe : U.IsStage frame) {i : Nat}
    (hi : i = U.base.thunks + (frame.index - U.base.frames)) :
    ∃ e env, thunks[i]? = some (.pending e env) := by
  have hlt : frame.index - U.base.frames < es.length := by
    rw [hes]
    exact Nat.sub_lt_left_of_lt_add hframe.1 hframe.2
  rw [hi]
  exact ⟨_, _, h _ _ (List.getElem?_eq_getElem hlt)⟩

/-- What the step calls is the same in both runs. -/
theorem refersTo_of_corresponds {s s' : Store} (hs : U.simulation.Corresponds w s s')
    {name : String} {v : Value} (h : s.RefersTo U.scope name v) :
    s'.RefersTo U.scope name v ∧ v.Like (U.likeness w) v := by
  rcases hs.resolve U.scope name with ⟨missing, hmissing, -⟩ | ⟨frame, key, b, b', hfound, -, hslot,
    hok, hok'⟩
  · rcases h with hv | ⟨_, hid, -⟩
    · cases hmissing.symm.trans hv
    · cases hmissing.symm.trans hid
  cases hslot with
  | same halike =>
    cases halike with
    | value hv =>
      rcases h with hresolve | ⟨_, hresolve, -⟩
      · cases hok.symm.trans hresolve
        have heq := eq_of_like hv
        subst heq
        exact ⟨.inl hok', hv⟩
      · cases hok.symm.trans hresolve
    | @deferred id id' hid =>
      rcases h with hresolve | ⟨_, hresolve, hforced⟩
      · cases hok.symm.trans hresolve
      · cases hok.symm.trans hresolve
        have hthunk := hs.thunks id id' hid
        rw [hforced] at hthunk
        generalize hforced' : s'.thunk? id' = x at hthunk
        cases hthunk with
        | some hstate =>
          cases hstate with
          | forced hv =>
            have heq := eq_of_like hv
            subst heq
            exact ⟨.inr ⟨id', hok', hforced'⟩, hv⟩
  -- neither an expression that waits nor a parameter has a value
  | @stage hstage _ id hid =>
    rcases h with hresolve | ⟨_, hresolve, hforced⟩
    · cases hok.symm.trans hresolve
    · cases hok.symm.trans hresolve
      obtain ⟨e, env, hpending⟩ := hs.lone.first.of_slot rfl hstage hid
      cases hpending.symm.trans hforced
  | @argument a ha hframe _ =>
    have hnew := (hs.sized.argument a ha).1
    have hsees : frame ∈ U.scope.visible := by
      rcases hfound with ⟨-, rfl⟩ | ⟨-, -, before, after, hvisible, -⟩
      · exact List.getLast_mem _
      · rw [hvisible]
        simp
    rw [hframe] at hnew
    exact absurd (lt_of_mem_scope hsees) (Nat.not_lt.2 hnew)

/-- The next call of the step gets a parameter. -/
def World.call (w : World) (s : Store) {param : String} (h : param ≠ placeholder) : World where
  sizes := s.sizes.addFrame.addThunk
  arguments := ⟨s.nextFrame, param, s.nextThunk, h⟩ :: w.arguments

/-- A call of the step adds one argument, in a frame that is not there yet. -/
theorem World.le_call {s : Store} (hsized : U.Sized w s.sizes) {param : String}
    (h : param ≠ placeholder) : w.Le (w.call s h) where
  sizes := by
    rw [hsized.eq]
    exact ⟨Nat.le_succ _, Nat.le_succ _, Nat.le_refl _⟩
  kept _ ha := List.mem_cons_of_mem _ ha
  new a ha := by
    rcases List.mem_cons.1 ha with rfl | ha
    · rw [hsized.eq]
      exact .inr ⟨Nat.le_refl _, Nat.le_refl _⟩
    · exact .inl ha

/-- The call of a closure with one parameter, which is deferred to the placeholder. -/
theorem corresponds_call {s s' : Store} (hs : U.simulation.Corresponds w s s') {param : String}
    (hne : param ≠ placeholder) (dot : Span) :
    U.simulation.Corresponds (w.call s hne) (s.addDeferred param (.sym placeholder dot) U.scope)
      (s'.addDeferred param (.sym placeholder dot) U.scope) := by
  have hle := World.le_call hs.sized hne
  have hframe : s'.nextFrame = s.nextFrame := congrArg FrameId.mk hs.frames
  have hthunk : s'.nextThunk = s.nextThunk := congrArg ThunkId.mk hs.lone.size
  have hsizes := s.sizes_addDeferred param (.sym placeholder dot) U.scope
  have hsizes' := s'.sizes_addDeferred param (.sym placeholder dot) U.scope
  exact {
    sized := by
      rw [hsizes]
      refine ⟨rfl, Nat.le_succ_of_le hs.sized.frames, Nat.le_succ_of_le hs.sized.thunks, ?_⟩
      intro a ha
      rcases List.mem_cons.1 ha with rfl | ha
      · exact ⟨hs.sized.frames, Nat.lt_succ_self _, Nat.lt_succ_self _⟩
      · obtain ⟨hnew, hlt, hid⟩ := hs.sized.argument a ha
        exact ⟨hnew, Nat.lt_succ_of_lt hlt, Nat.lt_succ_of_lt hid⟩
    frames := (congrArg Sizes.frames hsizes').trans
      ((congrArg (· + 1) hs.frames).trans (congrArg Sizes.frames hsizes).symm)
    bindings := fun frame key => by
      rw [Store.binding?_addDeferred, Store.binding?_addDeferred, hframe, hthunk]
      split
      · next heq =>
        split
        · next hkey =>
          have ha : ⟨s.nextFrame, param, s.nextThunk, hne⟩ ∈ (w.call s hne).arguments :=
            List.mem_cons_self
          exact .some (.argument ha heq.symm hkey.symm)
        · exact .none
      · exact Simulation.optionRel_mono (fun _ _ => Slot.of_le hle) (hs.bindings frame key)
    kept := fun frame key hkept => by
      have hold := hs.kept frame key hkept
      rw [Store.binding?_addDeferred, if_neg]
      · exact hold
      · rintro rfl
        have hnone : s.binding? s.nextFrame key = none :=
          Store.binding?_of_size_le (Nat.le_refl _) key
        rw [hnone] at hold
        cases hold
    thunks := fun id id' hid => by
      have hnew : id ≠ s.nextThunk := (hid.argument _ List.mem_cons_self).symm
      have hlt : id.index < s.thunks.size + 1 := hid.lt
      -- what is demanded in the new world was so in the old one, as it is not the new argument
      have hold : U.Demanded w id id' := by
        refine ⟨hid.eq, ?_, hid.stage, fun a ha => hid.argument a (List.mem_cons_of_mem _ ha)⟩
        rw [hs.sized.eq]
        refine Nat.lt_of_le_of_ne (Nat.le_of_lt_succ hlt) fun heq => hnew ?_
        exact congrArg ThunkId.mk heq
      have hnew' : id' ≠ s.nextThunk := hid.eq ▸ hnew
      rw [Store.thunk?_addDeferred, Store.thunk?_addDeferred, if_neg hnew, hthunk, if_neg hnew']
      exact Simulation.optionRel_mono (fun _ _ => (worlds_simulation U).state hle)
        (hs.thunks id id' hold)
    thunkSizes := (congrArg Sizes.thunks hsizes).trans
      ((congrArg (· + 1) hs.lone.size.symm).trans (congrArg Sizes.thunks hsizes').symm)
    inlines := fun ref ref' href => Simulation.optionRel_mono (fun _ _ => like_of_le hle)
      (hs.inlines ref ref' href)
    inlineSizes := hs.inlineSizes
    lone := hs.lone.push _
    functions := hs.functions
    depth := hs.depth
    printed := hs.printed }

end Unread

end PipeLang
