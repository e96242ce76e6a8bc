import PipeLang.Proofs.Placement
import PipeLang.Proofs.Stages

/-!
# Frames in which the placeholder is left alone

What can rebind the placeholder in a frame for good is an assignment, in code that sees the frame.
Where there is no such code, in the store or in what is evaluated (`Store.Shelters`, `Env.Spares`),
every evaluation leaves the placeholder of the frame bound as it finds it: a chain that is evaluated
step by step in the environment of the frame itself binds it anew and puts it back.

The frame of a stage is a new one, and nothing that is in the store sees it
(`Store.Placed.shelters_addDeferred`, `Store.Placed.shelters_addStages`).
-/

namespace PipeLang

/-- The expression does not assign to the placeholder if its environment sees the frame. -/
def Env.Spares (frame : FrameId) (env : Env) (e : Expr) : Prop :=
  frame ∈ env.visible → e.assigns placeholder = false

/-- No code in the store that sees the frame assigns to the placeholder; and the frame binds the
placeholder in this way, if one is given. -/
structure Store.Shelters (frame : FrameId) (bound? : Option (Option Binding)) (s : Store) :
    Prop where
  lt_size : frame.index < s.frames.size
  code : s.Runs (Env.Spares frame) fun c => Env.Spares frame c.env c.body
  bound : ∀ b, bound? = some b → s.binding? frame placeholder = b

namespace Store.Shelters

variable {frame other : FrameId} {bound? : Option (Option Binding)} {s t : Store}

theorem ne_nextFrame (hs : s.Shelters frame bound?) : frame ≠ s.nextFrame :=
  ne_nextFrame_of_lt hs.lt_size

theorem of_eq (hs : s.Shelters frame bound?) (hframes : t.frames = s.frames)
    (hcode : t.Runs (Env.Spares frame) fun c => Env.Spares frame c.env c.body) :
    t.Shelters frame bound? where
  lt_size := by rw [hframes]; exact hs.lt_size
  code := hcode
  bound b hb := by
    rw [binding?, bindings, hframes]
    exact hs.bound b hb

theorem bind (hs : s.Shelters frame bound?) {name : String} {b : Binding}
    (hwrite : name ≠ placeholder ∨ other ≠ frame ∨ bound? = none)
    (hb : ∀ v, b = .value v → v.Runs fun c => Env.Spares frame c.env c.body) :
    (s.bind other name b).Shelters frame bound? where
  lt_size := by
    rw [size_frames_bind]
    exact hs.lt_size
  code := hs.code.bind other name hb
  bound c hc := by
    rw [← hs.bound c hc]
    refine binding?_bind_of_ne ?_ s b
    rcases hwrite with hname | hother | hnone
    · exact .inr hname.symm
    · exact .inl hother.symm
    · rw [hnone] at hc
      cases hc

theorem addFrame (hs : s.Shelters frame bound?) {fields : Fields Binding}
    (hfields : ∀ name v, fields.get? name = some (.value v) →
      v.Runs fun c => Env.Spares frame c.env c.body) :
    (s.addFrame fields).Shelters frame bound? where
  lt_size := by
    rw [Store.addFrame, Array.size_push]
    exact Nat.lt_succ_of_lt hs.lt_size
  code := hs.code.addFrame hfields
  bound b hb := by
    rw [binding?, bindings_addFrame_of_ne hs.ne_nextFrame]
    exact hs.bound b hb

/-- The frame is put back to what it bound before. -/
theorem rebind (hs : s.Shelters frame none) {saved : Option Binding}
    (hsaved : ∀ v, saved = some (.value v) → v.Runs fun c => Env.Spares frame c.env c.body)
    (hbound : ∀ b, bound? = some b → saved = b) :
    (s.rebind frame placeholder saved).Shelters frame bound? where
  lt_size := by
    rw [size_frames_rebind]
    exact hs.lt_size
  code := hs.code.rebind frame placeholder hsaved
  bound b hb := (binding?_rebind_self fun _ => hs.lt_size).trans (hbound b hb)

theorem rebind_of_ne (hs : s.Shelters frame bound?) (hother : other ≠ frame)
    {saved : Option Binding}
    (hsaved : ∀ v, saved = some (.value v) → v.Runs fun c => Env.Spares frame c.env c.body) :
    (s.rebind other placeholder saved).Shelters frame bound? where
  lt_size := by
    rw [size_frames_rebind]
    exact hs.lt_size
  code := hs.code.rebind other placeholder hsaved
  bound b hb := by
    rw [binding?, bindings_rebind_of_ne hother.symm]
    exact hs.bound b hb

end Store.Shelters

/-- Evaluations of code that does not assign to the placeholder where it sees the frame. -/
def Invariant.sheltered (frame : FrameId) (bound? : Option (Option Binding)) : Invariant where
  env _ := True
  store := Store.Shelters frame bound?
  mayGiveUp := False
  code := Env.Spares frame
  closure c := Env.Spares frame c.env c.body

namespace Invariant

variable {frame : FrameId} {bound? : Option (Option Binding)} {env : Env} {ev other : Evaluator}

/-- Code that is spared in an environment is so in one within it. -/
theorem spares_within {s : Store} (hs : s.Shelters frame bound?) {e : Expr}
    (he : Env.Spares frame env e) : Env.Spares frame (env.within s.nextFrame) e := by
  intro hmem
  rw [Env.visible_within] at hmem
  exact he ((List.mem_cons.1 hmem).resolve_left hs.ne_nextFrame)

theorem sound_sheltered (frame : FrameId) (bound? : Option (Option Binding)) :
    (sheltered frame bound?).Sound where
  unnoticed := .id
  within _ _ := trivial
  ofBinding hs h := hs.code.bound h
  ofInline hs h := hs.code.spliced h
  codeWithin hs he := spares_within hs he
  parts he part hpart hmem := Expr.assigns_of_mem_parts (he hmem) part hpart
  step he kind hmem := (Expr.assigns_step _ kind).trans (he hmem)
  spliced _ _ _ _ _ := rfl
  lambda _ he _ := he
  stepClosure _ he _ := he
  closureEnv _ := trivial
  body hs hc := spares_within hs hc
  assign {s env name at_ value span v} hs _ he hv := by
    refine hs.bind ?_ (by rintro w ⟨⟩; exact hv)
    -- a frame that is written to is seen
    by_cases hown : env.own = frame
    · exact .inl (Expr.ne_of_assigns_eq_false (he (hown ▸ List.mem_cons_self)))
    · exact .inr (.inl hown)
  assignOuter {s env name at_ value span v} hs _ he hv := by
    refine hs.bind ?_ (by rintro w ⟨⟩; exact hv)
    by_cases hassigned : s.assignedFrame env name = frame
    · have hseen : frame ∈ env.visible := hassigned ▸ s.assignedFrame_mem_visible env name
      exact .inl (Expr.ne_of_assigns_eq_false (he hseen))
    · exact .inr (.inl hassigned)
  assignTarget hs _ _ htarget hv :=
    hs.bind (.inl (Expr.ne_placeholder_of_targetName htarget)) (by rintro w ⟨⟩; exact hv)
  addFrame hs h := hs.addFrame fun name v hv => h name (.value v) hv
  defer := by
    intro s env params args hs _ hargs
    have hframe : s.nextFrame ≠ frame := hs.ne_nextFrame.symm
    have hadded : (s.addFrame []).Shelters frame bound? := hs.addFrame (by rintro name v ⟨⟩)
    refine List.foldlRecOn _ _ hadded fun t ht pair hpair => ?_
    have he : Env.Spares frame env pair.2 := hargs pair.2 (List.of_mem_zip hpair).2
    have hwaiting : (t.addThunk pair.2 env).Shelters frame bound? :=
      ht.of_eq rfl (ht.code.addThunk he)
    exact hwaiting.bind (.inr (.inl hframe)) (by rintro v ⟨⟩)
  addInline hs hv := hs.of_eq rfl (hs.code.addInline hv)
  addFunction hs := hs.of_eq rfl (hs.code.of_eq rfl rfl rfl)
  print hs := hs.of_eq rfl (hs.code.of_eq rfl rfl rfl)

theorem forces_sheltered (hev : (sheltered frame bound?).Agree ev other) :
    (sheltered frame bound?).Forces ev other := by
  refine forces_of_inner rfl (fun _ _ _ hs h => hs.code.forced h) fun s id e env hs hpending _ => ?_
  have he : Env.Spares frame env e := hs.code.pending hpending
  refine ⟨sheltered frame bound?, rfl, fun h => h, hev.eval env trivial e he,
    hs.of_eq rfl (hs.code.enter id), fun r t _ ht => ⟨?_, fun v _ hv => ⟨hv, ?_⟩⟩⟩
  · exact ht.of_eq rfl (ht.code.leave id (by rintro _ _ ⟨⟩; exact he) (by rintro _ ⟨⟩))
  · exact ht.of_eq rfl (ht.code.leave id (by rintro _ _ ⟨⟩) (by rintro _ ⟨⟩; exact hv))

/-- The steps of a chain in another environment leave the frame alone. -/
theorem agrees_evalSteps_sheltered (hev : (sheltered frame bound?).Agree ev other)
    (hwrite : env.own ≠ frame ∨ bound? = none) :
    ∀ es : List Expr, (∀ e ∈ es, Env.Spares frame env e) →
      (sheltered frame bound?).Agrees (sheltered frame bound?).value (ev.evalSteps env es)
        (other.evalSteps env es)
  | [], _ => Agrees.fail _
  | [last], hes => hev.eval env trivial last (hes last (by simp))
  | e :: next :: rest, hes => by
    refine Agrees.bind (hev.eval env trivial e (hes e (by simp))) fun v hv => ?_
    refine Agrees.bind (Agrees.update (fun _ => rfl) fun s hs => ?_) fun _ _ => ?_
    · exact hs.bind (.inr hwrite) (by rintro w ⟨⟩; exact hv)
    · exact agrees_evalSteps_sheltered hev hwrite (next :: rest)
        fun e he => hes e (List.mem_cons_of_mem _ he)

/-- A chain in the environment of the frame itself puts the placeholder back at its end. -/
theorem chains_sheltered (hev : ∀ bound?, (sheltered frame bound?).Agree ev other)
    (bound? : Option (Option Binding)) : (sheltered frame bound?).Chains ev other := by
  intro env _ es hes s hs
  have hsaved : ∀ v, s.ownBinding? env placeholder = some (.value v) →
      v.Runs fun c => Env.Spares frame c.env c.body := fun v hv => hs.code.bound hv
  by_cases hown : env.own = frame
  · subst hown
    obtain ⟨heq, ht, hgood⟩ := (agrees_evalSteps_sheltered (hev none) (.inr rfl) es
      hes).of_not_mayGiveUp (fun h => h) ⟨hs.lt_size, hs.code, by rintro b ⟨⟩⟩
    exact .inr ⟨evalEager_congr heq, ht.rebind hsaved hs.bound, hgood⟩
  · obtain ⟨heq, ht, hgood⟩ := (agrees_evalSteps_sheltered (hev bound?) (.inl hown) es
      hes).of_not_mayGiveUp (fun h => h) hs
    exact .inr ⟨evalEager_congr heq, ht.rebind_of_ne hown hsaved, hgood⟩

theorem kept_sheltered (frame : FrameId) : Kept (sheltered frame) where
  view _ := rfl
  sound := sound_sheltered frame
  forces _ _ hev bound? := forces_sheltered (hev bound?)
  chains _ _ hev bound? := chains_sheltered hev bound?

end Invariant

/-! ### Evaluations that leave the placeholder alone -/

/-- An evaluation, to any nesting, leaves the placeholder of the frame bound as it finds it. -/
def Env.Leaves (frame : FrameId) (env : Env) (e : Expr) (s : Store) : Prop :=
  ∀ n, ((Evaluator.level n).eval env e s).2.binding? frame placeholder =
    s.binding? frame placeholder

/-- The request brings along no code that sees the frame and assigns to the placeholder. -/
def Request.Spares (frame : FrameId) (r : Request) : Prop :=
  r.Good (.sheltered frame none) ∧ r.Written (.sheltered frame none)

/-- In an environment that does not see the frame any code may be evaluated. -/
theorem Request.spares_eval {frame : FrameId} {env : Env} (h : frame ∉ env.visible) (e : Expr) :
    (Request.eval env e).Spares frame :=
  ⟨trivial, fun hmem => absurd hmem h⟩

namespace Store.Shelters

variable {frame : FrameId} {bound? : Option (Option Binding)} {env : Env} {e : Expr} {s : Store}

/-- Where no code that sees the frame assigns to the placeholder, an evaluation leaves it bound as
it was. -/
theorem binding?_eval (hlt : frame.index < s.frames.size)
    (hcode : s.Runs (Env.Spares frame) fun c => Env.Spares frame c.env c.body)
    (he : Env.Spares frame env e) (n : Nat) :
    ((Evaluator.level n).eval env e s).2.binding? frame placeholder =
      s.binding? frame placeholder := by
  have hs : s.Shelters frame (some (s.binding? frame placeholder)) :=
    ⟨hlt, hcode, by rintro b ⟨⟩; rfl⟩
  obtain ⟨hafter, -⟩ := (Invariant.kept_sheltered frame).store_of_run _ (fun h => h) (n := n)
    (r := .eval env e) trivial he hs
  exact hafter.bound _ rfl

theorem leaves (hs : s.Shelters frame bound?) (he : Env.Spares frame env e) :
    Env.Leaves frame env e s :=
  fun n => binding?_eval hs.lt_size hs.code he n

/-- A request that spares the frame keeps it, and so does every evaluation on the way. -/
theorem run (hs : s.Shelters frame bound?) {r : Request} (hr : r.Spares frame) (n : Nat) :
    (r.run (.level n) s).2.Shelters frame bound? ∧ EveryEntry (Env.Leaves frame) n r s := by
  have hkept := Invariant.kept_sheltered frame
  have hgood : r.Good (.sheltered frame bound?) := by
    cases r <;> exact hr.1
  have hcode : r.Written (.sheltered frame bound?) := by
    cases r <;> exact hr.2
  refine ⟨(hkept.store_of_run bound? (fun h => h) hgood hcode hs).1, ?_⟩
  exact hkept.everyEntry bound? (fun h => h) (fun _ _ _ _ _ he hu => hu.leaves he) hgood hcode hs

theorem runAll (hs : s.Shelters frame bound?) {requests : List Request}
    (hrequests : ∀ r ∈ requests, r.Spares frame) (n : Nat) :
    (Request.runAll (.level n) requests s).Shelters frame bound? :=
  List.foldlRecOn requests _ hs fun _ ht r hr => (ht.run (hrequests r hr) n).1

/-- A chain on demand keeps the frame in the same way. -/
theorem evalLazy (hs : s.Shelters frame bound?) {es : List Expr}
    (hes : ∀ e ∈ es, Env.Spares frame env e) (n : Nat) :
    ((Evaluator.level n).evalLazy env es s).2.Shelters frame bound? ∧
      Evaluator.Throughout (Env.Leaves frame) n (fun ev => ev.evalLazy env es) s := by
  have hkept := Invariant.kept_sheltered frame
  have hsound := Invariant.sound_sheltered frame bound?
  have hchain := (hkept.agree n bound?).evalLazy hsound trivial hes
  refine ⟨(hchain.of_not_mayGiveUp (fun h => h) hs).2.1, fun alarm => ?_⟩
  have hwatched := hkept.agree_watched (Env.Leaves frame) alarm
    (fun _ _ _ _ _ he hu => hu.leaves he) n bound?
  have heq := ((hwatched.evalLazy hsound trivial hes).of_not_mayGiveUp (fun h => h) hs).1
  exact congrArg Prod.fst heq

end Store.Shelters

/-! ### The frame of a stage -/

namespace Store

variable {s : Store} {env : Env}

/-- In the frame of a stage the placeholder is deferred to the step before it, and nothing that is
in the store sees that frame. -/
theorem Placed.shelters_addDeferred (hs : s.Placed) (henv : s.HasFrames env) (e : Expr) :
    (s.addDeferred placeholder e env).Runs (Env.Spares s.nextFrame)
      fun c => Env.Spares s.nextFrame c.env c.body := by
  have hunseen : ∀ {other : Env}, s.HasFrames other → ∀ e, Env.Spares s.nextFrame other e := by
    intro other hother e hmem
    exact absurd (hother _ hmem) (Nat.lt_irrefl _)
  have hcode := hs.code.mono (fun _ e h => hunseen h e) fun c h => hunseen h c.body
  exact (hcode.addFrame (by rintro name v ⟨⟩)).bindDeferred _ _ (hunseen henv e)

theorem Placed.addStages (hs : s.Placed) (henv : s.HasFrames env) (es : List Expr) :
    (s.addStages env es).2.Placed ∧ (s.addStages env es).2.HasFrames (s.addStages env es).1 := by
  induction es generalizing s env with
  | nil => exact ⟨hs, henv⟩
  | cons e es ih =>
    obtain ⟨hnext, hinner⟩ := hs.addStage henv e
    exact ih hnext hinner

/-- The last of some stages is sheltered as it is when it has been made. -/
theorem Placed.shelters_addStages (hs : s.Placed) (henv : s.HasFrames env) {es : List Expr}
    (hes : es ≠ []) :
    (s.addStages env es).2.Shelters (s.addStages env es).1.own
      (some ((s.addStages env es).2.binding? (s.addStages env es).1.own placeholder)) := by
  obtain ⟨hbefore, hinner⟩ := hs.addStages henv es.dropLast
  rw [s.addStages_eq_addStage env hes]
  refine ⟨lt_size_addDeferred _ placeholder _ _, hbefore.shelters_addDeferred hinner _, ?_⟩
  rintro b ⟨⟩
  rfl

end Store

end PipeLang
