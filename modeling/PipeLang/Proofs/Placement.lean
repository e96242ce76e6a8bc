import PipeLang.Proofs.Growth
import PipeLang.Proofs.Held
import PipeLang.Proofs.Lockstep
import PipeLang.Proofs.Placeholder

/-!
# Nothing dangles

The frames and the deferred values that a store refers to are there (`Store.Placed`).  This holds of
a fresh environment, and programs keep it (`Store.Placed.program`), so it holds throughout a session
(`Session.placed`).

The simulation for it, `Simulation.beside`, is a run beside itself: what corresponds to itself in a
world of so many frames and deferred values refers to no other ones.
-/

namespace PipeLang

/-- The deferred values and the frames that the store refers to are there. -/
structure Store.Placed (s : Store) : Prop where
  deferred : ∀ {frame name id}, s.binding? frame name = some (.deferred id) →
    id.index < s.thunks.size
  code : s.Runs (fun env _ => s.HasFrames env) fun c => s.HasFrames c.env

/-- There are so many frames that all the visible ones are among them. -/
def Sizes.HasFrames (z : Sizes) (env : Env) : Prop := ∀ frame ∈ env.visible, frame.index < z.frames

theorem Sizes.HasFrames.of_le {z z' : Sizes} (hle : z.Le z') {env : Env} (h : z.HasFrames env) :
    z'.HasFrames env := fun frame hframe => Nat.lt_of_lt_of_le (h frame hframe) hle.frames

/-- The frame that is made next is there afterwards. -/
theorem Sizes.HasFrames.within {z : Sizes} {env : Env} (h : z.HasFrames env) :
    z.addFrame.HasFrames (env.within ⟨z.frames⟩) := by
  intro frame hframe
  rw [Env.visible_within] at hframe
  rcases List.mem_cons.1 hframe with rfl | hframe
  · exact Nat.lt_succ_self _
  · exact Nat.lt_succ_of_lt (h frame hframe)

theorem Store.HasFrames.of_le {s t : Store} (hle : s.sizes.Le t.sizes) {env : Env}
    (h : s.HasFrames env) : t.HasFrames env := Sizes.HasFrames.of_le hle h

/-- What the store holds refers to frames that are there. -/
theorem Store.Placed.held {s : Store} (hs : s.Placed) {env : Env} (h : s.Holds env) :
    s.HasFrames env := by
  cases h with
  | bound hb hmem => exact Value.over_iff_runs.2 (hs.code.bound hb) env hmem
  | pending hx => exact hs.code.pending hx
  | forced hx hmem => exact Value.over_iff_runs.2 (hs.code.forced hx) env hmem
  | spliced hv hmem => exact Value.over_iff_runs.2 (hs.code.spliced hv) env hmem

/-- In the empty store there is nothing to be placed. -/
theorem Store.Placed.empty : Store.empty.Placed where
  deferred h := by simp [Store.binding?, Store.bindings, Store.empty, Fields.get?] at h
  code := .empty

/-- A new frame may bind values that refer to it. -/
theorem Store.Placed.addFrame {s : Store} (hs : s.Placed) {bindings : Fields Binding}
    (hnew : ∀ name b, bindings.get? name = some b →
      ∃ v, b = .value v ∧ v.Runs fun c => (s.addFrame bindings).HasFrames c.env) :
    (s.addFrame bindings).Placed where
  deferred hb := by
    rcases Store.binding?_of_addFrame hb with hnext | hold
    · obtain ⟨_, heq, -⟩ := hnew _ _ hnext
      cases heq
    · exact hs.deferred hold
  code := by
    have hle : s.sizes.Le (s.addFrame bindings).sizes :=
      s.sizes_addFrame bindings ▸ s.sizes.le_addFrame
    refine (hs.code.mono (fun _ _ => .of_le hle) fun _ => .of_le hle).addFrame ?_
    intro name v hget
    obtain ⟨_, heq, hv⟩ := hnew name _ hget
    cases heq
    exact hv

/-- A name may be deferred to code for an environment that is there. -/
theorem Store.Placed.bindDeferred {s : Store} (hs : s.Placed) {env : Env} (henv : s.HasFrames env)
    (frame : FrameId) (name : String) (e : Expr) : (s.bindDeferred frame name e env).Placed where
  deferred hb := by
    have hsize : (s.bindDeferred frame name e env).thunks.size = s.thunks.size + 1 :=
      Array.size_push _
    rw [hsize]
    rcases Store.eq_or_binding?_of_bind hb with heq | hold
    · cases heq
      exact Nat.lt_succ_self _
    · exact Nat.lt_succ_of_lt (hs.deferred hold)
  code := by
    have hsize : (s.bindDeferred frame name e env).frames.size = s.frames.size :=
      s.size_frames_bindDeferred frame name e env
    have henvs : ∀ env', s.HasFrames env' → (s.bindDeferred frame name e env).HasFrames env' := by
      intro env' henv'
      rw [Store.HasFrames, hsize]
      exact henv'
    refine (hs.code.bindDeferred frame name ?_).mono (fun env' _ => henvs env') fun c => henvs c.env
    exact henv

/-- A new stage defers code whose environment is there. -/
theorem Store.Placed.addStage {s : Store} (hs : s.Placed) {env : Env} (henv : s.HasFrames env)
    (e : Expr) :
    (s.addStage env e).2.Placed ∧ (s.addStage env e).2.HasFrames (s.addStage env e).1 := by
  have hadded : (s.addFrame []).Placed := hs.addFrame (by rintro _ _ ⟨⟩)
  have hinner := henv.of_grows (s.grows_addFrame [])
  exact ⟨hadded.bindDeferred hinner s.nextFrame placeholder e,
    henv.within (s.grows_addDeferred placeholder e env) (s.lt_size_addDeferred placeholder e env)⟩

/-- Only the frames, the deferred values and the spliced ones matter. -/
theorem Store.Placed.of_eq {s t : Store} (hs : s.Placed) (hframes : t.frames = s.frames)
    (hthunks : t.thunks = s.thunks) (hinlines : t.inlines = s.inlines) : t.Placed where
  deferred hb := by
    rw [Store.binding?, Store.bindings, hframes] at hb
    rw [hthunks]
    exact hs.deferred hb
  code := by
    have henvs : ∀ env, s.HasFrames env → t.HasFrames env := fun env henv => by
      rw [Store.HasFrames, hframes]
      exact henv
    have hcode := hs.code.of_eq hframes hthunks hinlines
    exact hcode.mono (fun env _ => henvs env) fun c => henvs c.env

namespace Simulation

/-! ### Runs of the same code -/

variable {S : Simulation} {w : S.World} {env : Env}

/-- An expression whose parts correspond to themselves matches itself. -/
theorem Matches.self (hname : ∀ name, S.name name) (hspan : ∀ at_, S.span at_ at_)
    (hquote : ∀ text, S.quote text text) {e : Expr} (h : ∀ part ∈ e.parts, S.code w env part part) :
    S.Matches w env e e := by
  have hall : ∀ {es : List Expr}, (∀ part ∈ es, part ∈ e.parts) →
      List.Forall₂ (S.code w env) es es :=
    fun hes => List.forall₂_same.2 fun part hpart => h part (hes part hpart)
  cases e with
  | lit literal s => exact .lit literal s s
  | sym name s => exact .sym name s s
  | inline label ref s => exact .inline _ _ _ _ s s
  | paren e s => exact .paren (h _ (by simp [Expr.parts])) (hspan s)
  | block es s => exact .block (hall fun _ hmem => hmem) s s
  | list es s => exact .list (hall fun _ hmem => hmem) s s
  | record fields s =>
    exact .record (Fields.alike_iff.2 ⟨rfl, hall fun _ hmem => hmem⟩) (fun name _ => hname name) s s
  | field e name s => exact .field (h _ (by simp [Expr.parts])) name s s
  | lambda params body s => exact .lambda params _ _ s s
  | ifThen cond yes s =>
    exact .ifThen (h _ (by simp [Expr.parts])) (h _ (by simp [Expr.parts])) s s
  | ifElse cond yes no s =>
    exact .ifElse (h _ (by simp [Expr.parts])) (h _ (by simp [Expr.parts]))
      (h _ (by simp [Expr.parts])) s s
  | call func args s =>
    exact .call (h _ List.mem_cons_self) (hall fun _ hmem => List.mem_cons_of_mem _ hmem) s s
  | assign target value scope s =>
    have hvalue : S.code w env value value := h _ (by simp [Expr.parts])
    -- a target that is no symbol makes the assignment an error
    cases target with
    | sym name at_ => exact .assign name hvalue scope at_ at_ s s
    | _ => exact .badAssign (by simp) (by simp) (hquote _) _ _ scope s s

/-- An expression assigns to the same name as itself. -/
theorem SameTarget.self (hquote : ∀ text, S.quote text text) (e : Expr) :
    S.SameTarget e.targetName e.targetName := by
  cases e with
  | sym name s =>
    rw [Expr.targetName]
    split
    · exact .inr ⟨_, _, rfl, rfl, hquote _⟩
    · exact .inl ⟨_, rfl, rfl⟩
  | _ => exact .inr ⟨_, _, rfl, rfl, hquote _⟩

end Simulation

/-! ### A run beside itself -/

namespace Beside

/-- A closure beside itself, with an environment that is there. -/
structure Called (w : Sizes) (c c' : Closure) : Prop where
  eq : c' = c
  frames : w.HasFrames c.env

def likeness (w : Sizes) : Likeness where
  closure := Called w
  special s := True ∨ ∀ op, s ≠ .pipe op

/-- A deferred value that is there. -/
structure Thunks (w : Sizes) (id id' : ThunkId) : Prop where
  eq : id' = id
  lt : id.index < w.thunks

end Beside

/-- A run beside itself. -/
def Simulation.beside : Simulation where
  World := Sizes
  le := Sizes.Le
  sized w z := w = z
  resize _ z := z
  env := Sizes.HasFrames
  code _ _ e e' := e' = e
  closure := Beside.Called
  slot w _ _ := Binding.Alike (Beside.likeness w) (Beside.Thunks w)
  thunk := Beside.Thunks
  span := Eq

namespace Beside

open Simulation (beside)

variable {w w' : Sizes} {s t : Store} {env : Env}

theorem Called.of_le (hle : w.Le w') {c c' : Closure} (h : Called w c c') : Called w' c c' :=
  ⟨h.eq, h.frames.of_le hle⟩

theorem Thunks.of_le (hle : w.Le w') {id id' : ThunkId} (h : Thunks w id id') : Thunks w' id id' :=
  ⟨h.eq, Nat.lt_of_lt_of_le h.lt hle.thunks⟩

theorem like_of_le (hle : w.Le w') {v v' : Value} (h : v.Like (likeness w) v') :
    v.Like (likeness w') v' := by
  have hclosure : ∀ c c', (likeness w).closure c c' → (likeness w').closure c c' :=
    fun _ _ hc => Called.of_le hle hc
  exact Value.Like.mono hclosure (fun _ h => h) (fun _ h => h) h

/-- More frames do no harm to environments that are there. -/
theorem worlds_beside : beside.Worlds where
  refl := Sizes.Le.refl
  trans h h' := Sizes.Le.trans h h'
  env hle h := Sizes.HasFrames.of_le hle h
  code _ _ _ _ _ _ h := h
  closure hle _ _ h := Called.of_le hle h
  exceptional _ _ _ _ _ _ h := h
  target _ _ _ _ _ _ h := h
  slot _ _ _ _ hle _ _ h := by
    cases h with
    | value hv => exact .value (like_of_le hle hv)
    | deferred hid => exact .deferred (hid.of_le hle)
  thunk hle _ _ h := Thunks.of_le hle h
  ref _ _ _ h := h
  le_resize hsized hz := hsized ▸ hz
  sized_resize _ _ := rfl
  thunk_of_resize hsized _ h hlt := ⟨h.eq, hsized ▸ hlt⟩
  ref_of_resize _ _ h _ := h

/-- Every identity stands for itself. -/
theorem numbered_beside : beside.Numbered where
  thunk_unique h h' := by rw [h.eq, h'.eq]
  thunk_lt_iff := by
    rintro _ m _ id _ rfl h
    rw [h.eq]
  thunk_next := by
    rintro w z _ - rfl
    exact ⟨rfl, Nat.lt_succ_self _⟩
  thunks_succ h := congrArg (· + 1) h
  ref_lt_iff := by
    rintro w m _ ref _ rfl rfl
    rfl
  ref_next := by
    rintro w z _ - rfl
    rfl
  refs_succ h := congrArg (· + 1) h
  lone_push _ _ _ := trivial
  lone_set _ _ _ := trivial
  lone_inline _ := trivial

/-- A run beside itself is the same run; what is known besides is that its environments are there.
-/
theorem sound_beside : beside.Sound where
  toWorlds := worlds_beside
  toNumbered := numbered_beside
  forms := by
    rintro w env e _ - rfl
    exact .self (fun _ => trivial) (fun _ => rfl) (fun _ => rfl) fun _ _ => rfl
  print h := congrArg Expr.print h.symm
  operatorName _ _ := trivial
  kind h := h.elim
  isLazy _ h := h.elim
  targetName := by
    rintro w env e _ - h
    cases h
    exact .self (fun _ => rfl) e
  targetOfFree _ h := h
  step h _ kind := congrArg kind.step h
  lambda henv h _ := by
    cases h
    exact ⟨rfl, henv⟩
  stepClosure henv h _ := by
    cases h
    exact ⟨rfl, henv⟩
  closureEnv h := ⟨congrArg Closure.env h.eq, h.frames⟩
  closureNames _ _ _ := trivial
  placeholderName := trivial
  body _ h := congrArg Closure.body h.eq
  -- the environment of a body has the new frame in front
  within hsized h := by
    cases hsized
    exact h.within
  codeWithin _ _ h := h
  inline h := by
    cases h
    exact ⟨rfl, rfl⟩
  nowhere := rfl
  spliced {w v v' ref ref'} hv href {env} _ {at_ at'} hspan := by
    obtain rfl : ref = ref' := href
    obtain rfl : at_ = at' := hspan
    exact congrArg (Expr.inline · ref at_) hv.show_eq.symm
  slotNew _ _ _ h := h
  slotAssign _ _ hv := .value hv
  slotOuter _ _ _ hv := .value hv
  slotTarget _ _ _ hv := .value hv

theorem lookups {ev other : Evaluator} (hev : beside.Agree ev other) : beside.Lookups ev other :=
  fun _ _ => Simulation.Relates.lookup worlds_beside fun _ _ _ _ _ _ _ _ _ hslot =>
    hev.forceBinding sound_beside hslot

theorem chains {ev other : Evaluator} (hev : beside.Agree ev other) : beside.Chains ev other :=
  fun henv hes => hev.evalEager sound_beside (fun _ hv => .value hv) henv hes

/-- Every level agrees with itself. -/
theorem agree_level (n : Nat) : beside.Agree (.level n) (.level n) := by
  induction n with
  | zero => exact Simulation.agree_idle worlds_beside
  | succ n ih =>
    exact ih.step sound_beside (lookups ih) (fun _ h => h.elim) (chains ih) fun h => h.elim

/-! ### Stores beside themselves -/

/-- A value whose closures are placed is like itself. -/
theorem like_self {v : Value} (h : v.Runs fun c => s.HasFrames c.env) :
    v.Like (likeness s.sizes) v :=
  Value.Like.refl (fun _ => Or.inl trivial) (fun _ => trivial) fun c hc => ⟨rfl, h c hc⟩

/-- A value that is like itself has closures that are placed. -/
theorem runs_of_like {v : Value} (h : v.Like (likeness t.sizes) v) :
    v.Runs fun c => t.HasFrames c.env :=
  fun _ hc => (List.forall₂_same.1 h.closures_alike _ hc).frames

/-- A store that is placed corresponds to itself in the world that it is. -/
theorem corresponds_self (hs : s.Placed) : beside.Corresponds s.sizes s s where
  sized := rfl
  frames := rfl
  bindings frame name := by
    refine Simulation.optionRel_self fun b hb => ?_
    cases b with
    | value v => exact .value (like_self (hs.code.bound hb))
    | deferred id => exact .deferred ⟨rfl, hs.deferred hb⟩
  kept _ _ h := h.elim
  -- the environment of a pending value has to be there, and so does each one in a value
  thunks id id' hid := by
    rw [hid.eq]
    refine Simulation.optionRel_self fun x hx => ?_
    cases x with
    | pending e env => exact .pending (hs.code.pending hx) rfl
    | evaluating => exact .evaluating
    | forced v => exact .forced (like_self (hs.code.forced hx))
  thunkSizes := rfl
  inlines ref ref' href := by
    obtain rfl : ref = ref' := href
    exact Simulation.optionRel_self fun v hv => like_self (hs.code.spliced hv)
  inlineSizes := rfl
  lone := trivial
  functions := rfl
  depth := rfl
  printed := rfl

/-- A store that corresponds to itself is placed. -/
theorem placed_of_corresponds (h : beside.Corresponds w t t) : t.Placed := by
  obtain rfl : w = t.sizes := h.sized
  have hstate : ∀ {id : ThunkId} {x : Thunk}, t.thunk? id = some x → beside.State t.sizes x x :=
    fun hx => Simulation.of_optionRel_self (h.thunks _ _ ⟨rfl, Store.lt_size_of_thunk? hx⟩) hx
  have hslot : ∀ {frame name b}, t.binding? frame name = some b →
      Binding.Alike (likeness t.sizes) (Thunks t.sizes) b b :=
    fun hb => Simulation.of_optionRel_self (h.bindings _ _) hb
  refine ⟨fun hb => ?_, fun hb => ?_, fun hx => ?_, fun hx => ?_, fun hv => ?_⟩
  · cases hslot hb with
    | deferred hid => exact hid.lt
  · cases hslot hb with
    | value hv => exact runs_of_like hv
  · cases hstate hx with
    | pending henv _ => exact henv
    | exceptional h => exact h.elim
  · cases hstate hx with
    | forced hv => exact runs_of_like hv
  · exact runs_of_like (Simulation.of_optionRel_self (h.inlines _ _ rfl) hv)

end Beside

/-! ### Programs and sessions -/

/-- A program in an environment that is there leaves nothing dangling, and neither does its
answer. -/
theorem Store.Placed.program {s : Store} (hs : s.Placed) {env : Env} (henv : s.HasFrames env)
    (stmts : List Expr) (n : Nat) :
    let ran := (Request.program env stmts).run (.level n) s
    ran.2.Placed ∧ s.sizes.Le ran.2.sizes ∧
      ∀ v, ran.1 = .ok v → v.Runs fun c => ran.2.HasFrames c.env := by
  intro ran
  have hcodes : List.Forall₂ (Simulation.beside.code s.sizes env) stmts stmts :=
    List.forall₂_same.2 fun _ _ => rfl
  have henv' : Simulation.beside.env s.sizes env := henv
  have hrun := (Beside.agree_level n).evalStatements Beside.worlds_beside henv' hcodes s s
    (Beside.corresponds_self hs)
  obtain ⟨w, hle, hstore, hend⟩ := hrun.of_not_lost (fun _ h => h) (fun h => h) fun h => h
  refine ⟨Beside.placed_of_corresponds hstore, hstore.sized ▸ hle, fun v hv => ?_⟩
  obtain rfl : w = ran.2.sizes := hstore.sized
  change Outcome.Alike _ _ ran.1 ran.1 at hend
  rw [hv] at hend
  cases hend with
  | ok hlike => exact Beside.runs_of_like hlike

/-- Builtins have no environment. -/
theorem placed_rootBindings : (Store.empty.addFrame rootBindings).Placed := by
  refine Store.Placed.empty.addFrame fun name b hget => ?_
  obtain ⟨v, heq, henvs⟩ := binding_of_mem_rootBindings hget
  have hover : v.Over (Store.empty.addFrame rootBindings).HasFrames := by
    intro env hmem
    rw [henvs] at hmem
    cases hmem
  exact ⟨v, heq, Value.over_iff_runs.1 hover⟩

theorem placed_globalEnv (mode : PipeMode) : (globalEnv mode).2.Placed :=
  placed_rootBindings.addFrame (by rintro _ _ ⟨⟩)

/-- In a session nothing dangles. -/
theorem Session.placed {mode : PipeMode} {envs : List Env} {s : Store} (h : Session mode envs s) :
    s.Placed ∧ ∀ env ∈ envs, s.HasFrames env := by
  induction h with
  | start =>
    have henv : (globalEnv mode).2.HasFrames (globalEnv mode).1 := by cases mode <;> decide
    exact ⟨placed_globalEnv mode, List.forall_mem_singleton.2 henv⟩
  | @child envs env s _ hmem ih =>
    obtain ⟨hs, henvs⟩ := ih
    have hle : s.sizes.Le (s.addFrame []).sizes := s.sizes_addFrame [] ▸ s.sizes.le_addFrame
    refine ⟨hs.addFrame (by rintro _ _ ⟨⟩), List.forall_mem_cons.2 ⟨?_, fun other hother => ?_⟩⟩
    · have hinner : s.sizes.addFrame.HasFrames (env.within s.nextFrame) :=
        Sizes.HasFrames.within (henvs env hmem)
      rw [← s.sizes_addFrame []] at hinner
      exact hinner
    · exact Store.HasFrames.of_le hle (henvs other hother)
  | @held envs env s _ hheld ih =>
    obtain ⟨hs, henvs⟩ := ih
    exact ⟨hs, List.forall_mem_cons.2 ⟨hs.held hheld, henvs⟩⟩
  | @run envs env s _ hmem n stmts ih =>
    obtain ⟨hs, henvs⟩ := ih
    obtain ⟨hafter, hle, hanswer⟩ := hs.program (henvs env hmem) stmts n
    refine ⟨hafter, fun other hother => ?_⟩
    rcases List.mem_append.1 hother with hnew | hold
    -- an environment that the answer holds
    · change other ∈ (Request.run (.level n) (.program env stmts) s).1.envs at hnew
      cases hrun : (Request.run (.level n) (.program env stmts) s).1 with
      | ok v =>
        rw [hrun] at hnew
        exact Value.over_iff_runs.2 (hanswer v hrun) other hnew
      | error | outOfFuel =>
        rw [hrun] at hnew
        cases hnew
    · exact Store.HasFrames.of_le hle (henvs other hold)

end PipeLang
