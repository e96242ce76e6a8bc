import PipeLang.Pipe.Run
import PipeLang.Proofs.FirstOrder
import PipeLang.Proofs.Growth
import PipeLang.Proofs.History

/-!
# Strategies for chains

A chain can be evaluated step by step, on demand, or as a functional sequence applied to the value
of its head.  Of first-order steps all three come to the same (`strategies_agree`): what a step
evaluates to depends on nothing but the value that arrives, and it is the same value in each.

Step by step, the value that arrives is bound in the environment itself (`EagerAt`).  In a
sequence it is bound in a frame of its own.  On demand it is a deferred value, which has still to
be evaluated, and so on back to the head of the chain: the stages that an evaluation on demand has
set up are listed with the values that they will have (`Stage`), and a store is `Ready` for them as
long as each of them is pending or has that value.
-/

namespace PipeLang

/-! ### Stages -/

/-- A deferred value of a chain that is evaluated on demand, and the value that it will have. -/
structure Stage where
  id : ThunkId
  e : Expr
  scope : Env
  value : Value

/-- A store with the frames of another one and a given depth, in which each stage is pending or has
its value. -/
structure Ready (base : Store) (stages : List Stage) (depth : Nat) (t : Store) : Prop where
  frames : t.frames = base.frames
  depth : t.depth = depth
  stages : ∀ stage ∈ stages, t.thunk? stage.id = some (.pending stage.e stage.scope) ∨
    t.thunk? stage.id = some (.forced stage.value)

namespace Ready

variable {base t : Store} {stages : List Stage} {stage : Stage} {depth : Nat}

theorem tail (h : Ready base (stage :: stages) depth t) : Ready base stages depth t :=
  ⟨h.frames, h.depth, fun other hother => h.stages other (List.mem_cons_of_mem _ hother)⟩

/-- To enter the innermost stage takes it off the list of those that wait. -/
theorem enter (h : Ready base (stage :: stages) depth t)
    (hfresh : ∀ other ∈ stages, other.id ≠ stage.id) :
    Ready base stages (depth + 1) (t.enter stage.id) where
  frames := h.frames
  depth := by rw [Store.depth_enter, h.depth]
  stages other hother := by
    rw [Store.thunk?_enter_of_ne (hfresh other hother)]
    exact h.tail.stages other hother

/-- When it has its value, it is on the list again. -/
theorem leave (h : Ready base stages (depth + 1) t)
    (hfresh : ∀ other ∈ stages, other.id ≠ stage.id)
    (hmarked : t.thunk? stage.id = some .evaluating) :
    Ready base (stage :: stages) depth (t.leave stage.id (.forced stage.value)) where
  frames := h.frames
  depth := by rw [Store.depth_leave, h.depth, Nat.add_sub_cancel]
  stages other hother := by
    rcases List.mem_cons.1 hother with rfl | hother
    · exact .inr (Store.thunk?_leave_self hmarked _)
    · rw [Store.thunk?_leave_of_ne (hfresh other hother)]
      exact h.stages other hother

/-- The demand of the last stage gives its value, and leaves the store ready. -/
theorem settles_force {n : Nat} (hfresh : ∀ other ∈ stages, other.id ≠ stage.id)
    (hdepth : depth < depthLimit)
    (heval : Eval.Settles (Ready base stages (depth + 1))
      ((Evaluator.level n).eval stage.scope stage.e) (.ok stage.value)) :
    Eval.Settles (Ready base (stage :: stages) depth) ((Evaluator.level n).force stage.id)
      (.ok stage.value) := by
  intro t ht
  rcases ht.stages stage List.mem_cons_self with hpending | hforced
  · obtain ⟨u, hrun, hu⟩ := heval _ (ht.enter hfresh)
    have hadvances := Store.advances_run n (.eval stage.scope stage.e) (t.enter stage.id)
    have hmarked : u.thunk? stage.id = some .evaluating := by
      have hkept := hadvances.evaluating (Store.thunk?_enter_self hpending)
      rwa [Request.run, hrun] at hkept
    refine ⟨u.leave stage.id (.forced stage.value), ?_, hu.leave hfresh hmarked⟩
    rw [Evaluator.force_of_pending _ hpending (by rw [ht.depth]; exact hdepth), hrun]
  · exact ⟨t, Evaluator.force_of_forced _ hforced, ht⟩

end Ready

/-! ### Step by step -/

/-- A value arrives in the environment already. -/
def Store.HasArrival (s : Store) (env : Env) : Prop :=
  ∃ w, s.find? env placeholder = some (.value w)

/-- The store `u` in the course of a chain that is evaluated step by step in an environment: the
value that arrives is bound there, and the names are bound as at the start. -/
structure EagerAt (s : Store) (env : Env) (arrives : Prop) (w : Value) (u : Store) : Prop where
  offers : Offers s env arrives w (· = u) 0 env
  own : env.own.index < u.frames.size

/-- Where the placeholder is a value, reading it changes nothing. -/
theorem Eval.settles_lookup {t : Store} {inner : Env} {w : Value} {n : Nat}
    (h : t.find? inner placeholder = some (.value w)) :
    Eval.Settles (· = t) ((Evaluator.level n).lookup inner placeholder) (.ok w) := by
  rintro _ rfl
  exact ⟨_, Evaluator.lookup_of_find? _ rfl h, rfl⟩

namespace EagerAt

variable {s u : Store} {env : Env} {arrives : Prop} {w v : Value} {n : Nat}

/-- The value of a step has arrived once it is bound. -/
theorem define (h : EagerAt s env arrives w u) (v : Value) :
    EagerAt s env True v (u.define env placeholder v) where
  offers := by
    refine ⟨?_, fun _ _ _ => Eval.settles_lookup (Store.find?_define_self h.own v)⟩
    rintro _ name v rfl hname hbound
    rw [Store.find?_define_of_ne hname]
    exact h.offers.name rfl hname hbound
  own := by
    rw [Store.define, Store.size_frames_bind]
    exact h.own

/-- What a first-order step reads is there, so its evaluation has a result in this very store. -/
theorem reads (h : EagerAt s env arrives w u) {e : Expr} (he : FirstOrder s env arrives e)
    (n : Nat) : ∃ r, (Evaluator.level n).eval env e u = (r, u) :=
  he.reads h.offers n

end EagerAt

/-- After a step with a value come the other steps, with the placeholder bound to it. -/
theorem Evaluator.evalSteps_of_ok {ev : Evaluator} {env : Env} {e next : Expr} {rest : List Expr}
    {u t : Store} {v : Value} (hv : ev.eval env e u = (.ok v, t)) :
    ev.evalSteps env (e :: next :: rest) u =
      ev.evalSteps env (next :: rest) (t.define env placeholder v) := by
  rw [evalSteps, Eval.bind_of_ok hv]
  rfl

/-- A chain in two parts goes on with the value of the first one. -/
theorem Evaluator.evalSteps_append_eq (ev : Evaluator) {env : Env} {es rest : List Expr}
    (hes : es ≠ []) (hrest : rest ≠ []) :
    ev.evalSteps env (es ++ rest) = (do
      let v ← ev.evalSteps env es
      Eval.update fun s => s.define env placeholder v
      ev.evalSteps env rest) := by
  obtain ⟨next, more, rfl⟩ := List.exists_cons_of_ne_nil hrest
  induction es with
  | nil => exact absurd rfl hes
  | cons e es ih =>
    cases es with
    | nil => rfl
    | cons e' es =>
      have hrest := ih (List.cons_ne_nil e' es)
      rw [List.cons_append, List.cons_append, evalSteps, ← List.cons_append, hrest, evalSteps]
      simp only [bind_assoc]

/-- A first step without a value is the end of the chain. -/
theorem Evaluator.evalSteps_of_failed {ev : Evaluator} {env : Env} {e : Expr} {u t : Store}
    {r : Outcome EvalError Value} (hr : ev.eval env e u = (r, t)) (hfailed : ∀ v, r ≠ .ok v)
    (rest : List Expr) : (ev.evalSteps env (e :: rest) u).1 = r := by
  cases rest with
  | nil => rw [evalSteps, hr]
  | cons next rest =>
    rw [evalSteps]
    cases r with
    | ok v => exact absurd rfl (hfailed v)
    | error err => rw [Eval.bind_of_error hr]
    | outOfFuel => rw [Eval.bind_of_outOfFuel hr]

/-- What the placeholder was bound to is put back without an effect on the outcome. -/
theorem Evaluator.evalEager_fst (ev : Evaluator) (env : Env) (es : List Expr) (s : Store) :
    (ev.evalEager env es s).1 = (ev.evalSteps env es s).1 := rfl

/-! ### On demand -/

/-- A chain in the course of both evaluations: the value that arrives step by step is offered on
demand in the environment of the last stage, from every store that is ready for the stages. -/
structure LazyAt (s : Store) (env : Env) (n : Nat) (arrives : Prop) (w : Value) (u : Store)
    (stages : List Stage) (scope : Env) (t : Store) : Prop where
  eager : EagerAt s env arrives w u
  ready : Ready t stages t.depth t
  offers : ∀ {base depth}, t.Grows base → stages.length ≤ depthLimit - depth →
    Offers s env arrives w (Ready base stages depth) (stages.length * n) scope

namespace LazyAt

variable {s u t : Store} {env scope : Env} {n m : Nat} {arrives : Prop} {w v : Value}
  {stages : List Stage}

/-- The start of both evaluations, in an environment with the frames of the store. -/
theorem start (henv : s.HasFrames env) :
    ∃ w, LazyAt s env n (s.HasArrival env) w s [] env s := by
  -- without an arrival any value will do
  obtain ⟨w, hw⟩ : ∃ w, s.HasArrival env → s.find? env placeholder = some (.value w) := by
    by_cases harrives : s.HasArrival env
    · obtain ⟨w, hw⟩ := harrives
      exact ⟨w, fun _ => hw⟩
    · exact ⟨.null, fun h => absurd h harrives⟩
  refine ⟨w, ⟨⟨?_, fun h _ _ => Eval.settles_lookup (hw h)⟩, henv _ List.mem_cons_self⟩,
    ⟨rfl, rfl, fun _ h => absurd h List.not_mem_nil⟩, fun hgrows _ => ⟨?_, ?_⟩⟩
  · rintro _ name v rfl - hbound
    exact hbound
  · intro t name v ht _ hbound
    rw [(hgrows.of_frames_eq ht.frames).find?_eq henv, hbound]
  · intro h k _ t ht
    have hfind := (hgrows.of_frames_eq ht.frames).find?_eq henv placeholder
    exact ⟨t, Evaluator.lookup_of_find? _ rfl (hfind.trans (hw h)), ht⟩

/-- The next step, with a stage for the one before it. -/
theorem addStage (h : LazyAt s env n arrives w u stages scope t) {e : Expr}
    (he : FirstOrder s env arrives e) (hv : (Evaluator.level n).eval env e u = (.ok v, u)) :
    LazyAt s env n True v (u.define env placeholder v) (⟨t.nextThunk, e, scope, v⟩ :: stages)
      (t.addStage scope e).1 (t.addStage scope e).2 := by
  have hfresh : ∀ other ∈ stages, other.id ≠ t.nextThunk := by
    intro other hother
    rcases h.ready.stages other hother with hthunk | hthunk
    · exact Store.ne_nextThunk_of_thunk? hthunk
    · exact Store.ne_nextThunk_of_thunk? hthunk
  refine ⟨h.eager.define v, ⟨rfl, rfl, ?_⟩, fun {base depth} hgrows hdepth => ?_⟩
  · -- the new stage is pending, the others are as before
    intro stage hstage
    rw [Store.addStage_eq, Store.thunk?_addDeferred]
    rcases List.mem_cons.1 hstage with rfl | hstage
    · exact .inl (if_pos rfl)
    · rw [if_neg (hfresh stage hstage)]
      exact h.ready.stages stage hstage
  · have hbase : t.Grows base := (t.grows_addDeferred placeholder e scope).trans hgrows
    rw [List.length_cons] at hdepth
    have hown : ∀ {t' : Store}, t'.frames = base.frames →
        t'.bindings t.nextFrame = [(placeholder, .deferred t.nextThunk)] := by
      intro t' hframes
      rw [(hgrows.of_frames_eq hframes).bindings (t.lt_size_addDeferred placeholder e scope)]
      exact t.bindings_addDeferred placeholder e scope
    constructor
    case name =>
      intro t' name bound ht' hname hbound
      refine (Store.find?_within_of_ne (hown ht'.frames) hname).trans ?_
      exact (h.offers hbase (by omega)).name ht'.tail hname hbound
    case arrival =>
      intro _ k hk t' ht'
      have hresolve : t'.resolve (t.addStage scope e).1 placeholder = .ok (.deferred t.nextThunk) :=
        Store.resolve_of_find? rfl (Store.find?_within_self (hown ht'.frames))
      rw [Evaluator.lookup_of_resolve _ hresolve]
      -- the demand evaluates the step before, one level deeper and with one stage less
      have hnesting : n + stages.length * n ≤ k := by
        rw [List.length_cons, Nat.succ_mul] at hk
        omega
      have hdeeper : stages.length ≤ depthLimit - (depth + 1) := by omega
      have hbefore :=
        he.settles h.eager.offers (h.offers hbase hdeeper) hnesting hv (by rintro ⟨⟩)
      exact Ready.settles_force hfresh (by omega) hbefore t' ht'

/-- A chain that has a value step by step has it on demand. -/
theorem evalLazy (h : LazyAt s env n arrives w u stages scope t) {e : Expr} {steps : List Expr}
    (he : FirstOrder s env arrives e) (hsteps : ∀ e ∈ steps, FirstOrder s env True e)
    (hdepth : stages.length + steps.length ≤ depthLimit - t.depth)
    (hv : ((Evaluator.level n).evalSteps env (e :: steps) u).1 = .ok v)
    (hm : (stages.length + steps.length + 1) * n ≤ m) :
    ((Evaluator.level m).evalLazy scope (e :: steps) t).1 = .ok v := by
  induction steps generalizing arrives w u stages scope t e with
  | nil =>
    -- the last step is evaluated at once, and all others as far as it needs them
    obtain ⟨r, hread⟩ := h.eager.reads he n
    have hr : r = .ok v := by
      rw [← hv, Evaluator.evalSteps, hread]
    subst hr
    have hnesting : n + stages.length * n ≤ m := by
      rw [List.length_nil, Nat.add_zero, Nat.succ_mul] at hm
      omega
    have hoffers := h.offers (Store.Grows.refl t) (by omega)
    obtain ⟨t', hlast, -⟩ :=
      he.settles h.eager.offers hoffers hnesting hread (by rintro ⟨⟩) t h.ready
    rw [Evaluator.evalLazy, hlast]
  | cons next rest ih =>
    obtain ⟨r, hread⟩ := h.eager.reads he n
    cases r with
    | ok v' =>
      -- the step becomes a stage, and the rest of the chain goes on from there
      rw [Evaluator.evalSteps_of_ok hread] at hv
      rw [List.length_cons] at hdepth hm
      refine ih (h.addStage he hread) (hsteps next (by simp))
        (fun e he => hsteps e (by simp [he])) ?_ hv ?_
      · show stages.length + 1 + rest.length ≤ depthLimit - t.depth
        omega
      · show (stages.length + 1 + rest.length + 1) * n ≤ m
        rw [show stages.length + 1 + rest.length = stages.length + (rest.length + 1) by omega]
        exact hm
    | error | outOfFuel =>
      rw [Evaluator.evalSteps_of_failed hread (by rintro _ ⟨⟩)] at hv
      cases hv

end LazyAt

/-! ### As a functional sequence -/

/-- The functions of the placeholder that some steps become, their identities from a number on. -/
def stepFunctions (env : Env) : List Expr → Nat → List Value
  | [], _ => []
  | e :: rest, i => .closure ⟨⟨i⟩, [placeholder], e, env⟩ :: stepFunctions env rest (i + 1)

/-- Each step takes a function number, and then the sequence itself takes one. -/
theorem Eval.makeSequence_apply (env : Env) (steps : List Expr) (s : Store) :
    makeSequence env steps s =
      (.ok (.sequence ⟨s.functions + steps.length⟩ (stepFunctions env steps s.functions)),
        { s with functions := s.functions + steps.length + 1 }) := by
  have hsteps : ∀ (steps : List Expr) (s : Store),
      (steps.mapM fun e => makeClosure [placeholder] e env) s =
        (.ok (stepFunctions env steps s.functions),
          { s with functions := s.functions + steps.length }) := by
    intro steps
    induction steps with
    | nil => exact fun s => rfl
    | cons e rest ih =>
      intro s
      have hfirst : makeClosure [placeholder] e env s =
          (.ok (.closure ⟨⟨s.functions⟩, [placeholder], e, env⟩), s.addFunction) := rfl
      rw [List.mapM_cons, Eval.bind_of_ok hfirst, Eval.bind_of_ok (ih _)]
      rw [List.length_cons, Nat.add_comm rest.length 1, ← Nat.add_assoc]
      rfl
  exact Eval.bind_of_ok (hsteps steps s)

/-- The answer of the functional sequence of some steps to a value. -/
def Evaluator.applySequence (ev : Evaluator) (env : Env) (steps : List Expr) (v : Value) :
    Eval Value := do
  let f ← Eval.makeSequence env steps
  ev.apply env f [v]

section

variable {s u t : Store} {env : Env} {n m : Nat} {arrives : Prop} {w v : Value}

/-- A first-order step as a function: its frame binds the value that arrives. -/
theorem FirstOrder.apply_step {e : Expr} {r : Outcome EvalError Value}
    (he : FirstOrder s env True e) (heager : EagerAt s env True w u)
    (henv : s.HasFrames env) (hgrows : s.Grows t)
    (hr : (Evaluator.level n).eval env e u = (r, u)) (hfuel : r ≠ .outOfFuel) (hm : n ≤ m)
    (id : FunctionId) :
    ∃ t', (Evaluator.level (m + 1)).apply env (.closure ⟨id, [placeholder], e, env⟩) [w] t =
      (r, t') ∧ s.Grows t' := by
  let inner : Env := env.within t.nextFrame
  let t' : Store := t.addFrame [(placeholder, .value w)]
  have hgrows' : s.Grows t' := hgrows.trans (t.grows_addFrame _)
  have hframe : t'.bindings t.nextFrame = [(placeholder, .value w)] :=
    t.bindings_addFrame_nextFrame _
  have hoffers : Offers s env True w (· = t') 0 inner := by
    refine ⟨?_, fun _ _ _ => Eval.settles_lookup (Store.find?_within_self hframe)⟩
    rintro _ name bound rfl hname hbound
    rw [Store.find?_within_of_ne hframe hname, hgrows'.find?_eq henv, hbound]
  obtain ⟨_, hbody, rfl⟩ := he.settles heager.offers hoffers hm hr hfuel t' rfl
  exact ⟨t', hbody, hgrows'⟩

/-- The functions that the steps of a chain become come, one after the other, to what the steps
come to after the one that has given the value. -/
theorem applyAll_stepFunctions (henv : s.HasFrames env)
    (hm : n ≤ m) {e : Expr} {steps : List Expr} (hsteps : ∀ e ∈ steps, FirstOrder s env True e)
    (heager : EagerAt s env arrives w u) (hv : (Evaluator.level n).eval env e u = (.ok v, u))
    (hgrows : s.Grows t) (i : Nat) {r : Outcome EvalError Value}
    (hr : ((Evaluator.level n).evalSteps env (e :: steps) u).1 = r) (hfuel : r ≠ .outOfFuel) :
    ((Evaluator.level (m + 1)).applyAll env (stepFunctions env steps i) v t).1 = r := by
  induction steps generalizing arrives w u v t e i with
  | nil =>
    rw [Evaluator.evalSteps, hv] at hr
    exact hr
  | cons next rest ih =>
    have hnext : FirstOrder s env True next := hsteps next (by simp)
    rw [Evaluator.evalSteps_of_ok hv] at hr
    obtain ⟨r', hread⟩ := (heager.define v).reads hnext n
    -- the chain ends, so its next step does
    have hfuel' : r' ≠ .outOfFuel := by
      rintro rfl
      exact hfuel (hr.symm.trans (Evaluator.evalSteps_of_failed hread (by rintro _ ⟨⟩) rest))
    obtain ⟨t', happly, hgrows'⟩ :=
      hnext.apply_step (heager.define v) henv hgrows hread hfuel' hm ⟨i⟩
    rw [Evaluator.applyAll, stepFunctions, List.foldlM_cons]
    cases r' with
    | ok v' =>
      rw [Eval.bind_of_ok happly]
      exact ih (fun e he => hsteps e (by simp [he])) (heager.define v) hread hgrows' (i + 1) hr
    | error err =>
      rw [Eval.bind_of_error happly]
      exact (Evaluator.evalSteps_of_failed hread (by rintro _ ⟨⟩) rest).symm.trans hr
    | outOfFuel => exact absurd rfl hfuel'

/-- The functional sequence of the steps comes to what the chain comes to. -/
theorem EagerAt.applySequence (heager : EagerAt s env arrives w s) (henv : s.HasFrames env)
    (hm : n ≤ m) {e : Expr} {steps : List Expr} (hsteps : ∀ e ∈ steps, FirstOrder s env True e)
    (hv : (Evaluator.level n).eval env e s = (.ok v, s)) {r : Outcome EvalError Value}
    (hr : ((Evaluator.level n).evalSteps env (e :: steps) s).1 = r) (hfuel : r ≠ .outOfFuel) :
    ((Evaluator.level (m + 2)).applySequence env steps v s).1 = r := by
  have hgrows : s.Grows { s with functions := s.functions + steps.length + 1 } :=
    (Store.Grows.refl s).of_frames_eq rfl
  rw [Evaluator.applySequence, Eval.bind_of_ok (Eval.makeSequence_apply env steps s)]
  exact applyAll_stepFunctions henv hm hsteps heager hv hgrows s.functions hr hfuel

end

/-! ### All three -/

/-- From any store and in any environment with the frames of the store, for a chain of first-order
expressions with no more steps than demands may still be nested: if it has a value step by step, it
has the same on demand, and so has the functional sequence of its steps applied to the value of its
head; and if it fails after its head, the functional sequence fails with the same error.  The
evaluations need not be nested in the same way, so the second and the third may need a larger
bound than the first. -/
theorem strategies_agree {s : Store} {env : Env} {head : Expr} {steps : List Expr} {n m : Nat}
    (henv : s.HasFrames env)
    (hhead : FirstOrder s env (s.HasArrival env) head)
    (hsteps : ∀ e ∈ steps, FirstOrder s env True e)
    (hdepth : steps.length ≤ depthLimit - s.depth) (hm : (steps.length + 1) * n + 2 ≤ m) :
    (∀ v, ((Evaluator.level n).evalEager env (head :: steps) s).1 = .ok v →
      ((Evaluator.level m).evalLazy env (head :: steps) s).1 = .ok v ∧
        ∃ w, ((Evaluator.level n).eval env head s).1 = .ok w ∧
          ((Evaluator.level m).applySequence env steps w s).1 = .ok v) ∧
    ∀ w err, ((Evaluator.level n).eval env head s).1 = .ok w →
      ((Evaluator.level n).evalEager env (head :: steps) s).1 = .error err →
        ((Evaluator.level m).applySequence env steps w s).1 = .error err := by
  obtain ⟨w₀, hlazy⟩ := LazyAt.start (n := n) henv
  have heager := hlazy.eager
  obtain ⟨r, hread⟩ := heager.reads hhead n
  -- two levels lead from the sequence to the bodies of its steps
  obtain ⟨k, rfl⟩ : ∃ k, m = k + 2 := ⟨m - 2, by omega⟩
  have hk : n ≤ k := by
    have hle : 1 * n ≤ (steps.length + 1) * n := Nat.mul_le_mul_right n (by omega)
    omega
  refine ⟨fun v hv => ⟨?_, ?_⟩, fun w err hw herr => ?_⟩
  · refine hlazy.evalLazy hhead hsteps (by simpa using hdepth) hv ?_
    rw [List.length_nil, Nat.zero_add]
    omega
  · cases r with
    | ok w =>
      have hw : ((Evaluator.level n).eval env head s).1 = .ok w := by rw [hread]
      exact ⟨w, hw, heager.applySequence henv hk hsteps hread hv (by rintro ⟨⟩)⟩
    | error | outOfFuel =>
      rw [Evaluator.evalEager_fst, Evaluator.evalSteps_of_failed hread (by rintro _ ⟨⟩)] at hv
      cases hv
  · rw [hread] at hw
    obtain rfl : r = .ok w := hw
    exact heager.applySequence henv hk hsteps hread herr (by rintro ⟨⟩)

/-- A chain of two steps at the largest depth that allows them, and one that fails at its end. -/
theorem agree_pair_and_stop :
    let env : Env := ⟨⟨1⟩, [⟨0⟩], .auto⟩
    let s : Store := { Store.empty with
      frames := #[[("is_null", .value (.native (.unary .isNull))),
        ("stop", .value (.native (.unary .stop)))], []]
      depth := 126 }
    let head : Expr := .lit (.str "a") .nowhere
    let dot : Expr := .sym placeholder .nowhere
    let pair : Expr := .list [dot, .call (.sym "is_null" .nowhere) [dot] .nowhere] .nowhere
    let stop : Expr := .call (.sym "stop" .nowhere) [dot] .nowhere
    let answer : Value :=
      .list [.list [.str "a", .bool false], .bool false]
    ((Evaluator.level 11).evalLazy env [head, pair, pair] s).1 = .ok answer ∧
    ((Evaluator.level 11).applySequence env [pair, pair] (.str "a") s).1 = .ok answer ∧
    ((Evaluator.level 8).applySequence env [stop] (.str "a") s).1 = .error (.user "a") := by
  intro env s head dot pair stop answer
  have henv : s.HasFrames env := by decide
  -- a call of a builtin with the placeholder as its argument is first-order
  have hcall : ∀ {name n}, name ≠ placeholder → unqualified? name = none →
      s.find? env name = some (.value (.native n)) → n.Computes →
        FirstOrder s env True (.call (.sym name .nowhere) [dot] .nowhere) := by
    intro name n hname hbare hbound hn
    refine .call hname hbare hbound hn ?_ _ _
    rintro e he
    obtain rfl := List.mem_singleton.1 he
    exact .arrival trivial _
  have hpair : FirstOrder s env True pair := by
    refine .list ?_ _
    rintro e he
    rcases List.mem_cons.1 he with rfl | he
    · exact .arrival trivial _
    · obtain rfl := List.mem_singleton.1 he
      exact hcall (n := .unary .isNull) (by decide) rfl rfl (by decide)
  have hstop : FirstOrder s env True stop :=
    hcall (n := .unary .stop) (by decide) rfl rfl (by decide)
  have hpairs : ∀ e ∈ [pair, pair], FirstOrder s env True e := by
    rintro e he
    obtain rfl : e = pair := by simpa using he
    exact hpair
  -- two steps at a depth of 126, which is as deep as they may be
  obtain ⟨hok, -⟩ := strategies_agree (n := 3) (m := 11) henv (.lit (.str "a") .nowhere) hpairs
    (by decide) (by decide)
  obtain ⟨-, hfailed⟩ := strategies_agree (n := 3) (m := 8) henv (.lit (.str "a") .nowhere)
    (fun e he => List.mem_singleton.1 he ▸ hstop) (by decide) (by decide)
  obtain ⟨hlazy, w, hw, hsequence⟩ := hok answer rfl
  cases hw
  exact ⟨hlazy, hsequence, hfailed (.str "a") (.user "a") rfl rfl⟩

end PipeLang
