import PipeLang.Proofs.Nesting
import PipeLang.Proofs.Unread

/-!
# Steps that nothing reads do not matter

If a step of a chain that is evaluated on demand ignores what arrives, the expressions before it may
be exchanged for any other ones: the chain ends in the same way, and in the same store but for the
expressions themselves, which go on waiting (`unread_steps_do_not_matter`).

What the step calls is looked up when the step is evaluated, so it is at those moments that it must
ignore its argument.  That it does so at the start is not enough
(`unread_steps_matter_if_reassigned`).

The first run is watched for that: where the step would not ignore what arrives, it ends at once
(`Unread.heeding`).  If it would do so with an error that is not its outcome, the outcomes of the
two runs are compared for every bound on the nesting; if it would give up, the stores are compared
where it ends (`Unread.outcome_eq`, `Unread.stores_correspond`).
-/

namespace PipeLang

/-- The second store is the first one but for some deferred values. -/
structure Store.SameBut (unread : ThunkId → Prop) (s t : Store) : Prop where
  printed : t.printed = s.printed
  bindings : ∀ frame name, t.binding? frame name = s.binding? frame name
  thunks : ∀ id, ¬ unread id → t.thunk? id = s.thunk? id
  inlines : ∀ ref, t.inline? ref = s.inline? ref
  functions : t.functions = s.functions
  depth : t.depth = s.depth

/-! ### Watching -/

/-- Where a test fails, a watched computation may give up; otherwise it is the one that is not
watched. -/
theorem Invariant.agree_watched_level (test : Env → Expr → Store → Prop) (n : Nat) :
    anyMayGiveUp.Agree (.watched test (fun _ _ => .giveUp) n) (.level n) := by
  have hguarded : ∀ {ev other : Evaluator}, anyMayGiveUp.Agree ev other →
      anyMayGiveUp.Agree (ev.guarded test fun _ _ => .giveUp) other := by
    intro ev other hev
    refine ⟨fun env henv e he s hs => ?_, hev.apply⟩
    by_cases htest : test env e s
    · exact .congr (Evaluator.eval_guarded_of_test htest ev) rfl (hev.eval env henv e he s hs)
    · exact .inl ⟨trivial, by rw [Evaluator.eval_guarded_of_not_test htest]; rfl⟩
  induction n with
  | zero => exact hguarded (agree_idle_anyMayGiveUp _)
  | succ n ih =>
    have hlawful := lawful_anyMayGiveUp
    exact hguarded (ih.step hlawful.sound (forces_anyMayGiveUp ih) (hlawful.chains ih))

/-- A chain that ends although it would give up where the test fails is not affected by it. -/
theorem Evaluator.evalLazy_watched_eq {test : Env → Expr → Store → Prop} {n : Nat} {env : Env}
    {es : List Expr} {s : Store}
    (h : ((watched test (fun _ _ => .giveUp) n).evalLazy env es s).1 ≠ .outOfFuel) :
    (watched test (fun _ _ => .giveUp) n).evalLazy env es s = (level n).evalLazy env es s := by
  have henv : Invariant.anyMayGiveUp.env env := trivial
  have hes : ∀ e ∈ es, Invariant.anyMayGiveUp.code env e := fun _ _ => trivial
  have hagree := (Invariant.agree_watched_level test n).evalLazy
    Invariant.lawful_anyMayGiveUp.sound henv hes s trivial
  exact (hagree.resolve_left fun hlost => h hlost.2).1.symm

namespace Unread

variable {U : Unread} {w : World} {s s' : Store}

/-! ### The step of both runs -/

/-- Where the step is evaluated, it ignores what arrives. -/
def Heeds (U : Unread) (env : Env) (e : Expr) (s : Store) : Prop :=
  env = U.scope → e = U.step → s.IgnoresArgument env U.name

/-- The first run, which ends at once where the step would not ignore what arrives. -/
noncomputable def heeding (U : Unread) (n : Nat) : Evaluator :=
  .watched U.Heeds (fun _ _ s => (U.alarm, s)) n

/-- What the step calls needs no evaluation. -/
theorem eval_callee {test : Env → Expr → Store → Prop} {alarm : Env → Expr → Eval Value} {v : Value}
    (htest : test U.scope (.sym U.name U.at_) s) (h : s.RefersTo U.scope U.name v) (n : Nat) :
    (Evaluator.watched test alarm n).eval U.scope (.sym U.name U.at_) s =
      (if n = 0 then .outOfFuel else .ok v, s) := by
  cases n with
  | zero => exact Evaluator.eval_guarded_of_test htest _
  | succ n =>
    rw [Evaluator.eval_watched_of_test htest, if_neg (Nat.succ_ne_zero n)]
    show (Evaluator.watched test alarm n).lookup U.scope U.name s = _
    rcases h with hresolve | ⟨id, hresolve, hforced⟩
    · rw [Evaluator.lookup_of_resolve _ hresolve]
      rfl
    · rw [Evaluator.lookup_of_resolve _ hresolve]
      exact Evaluator.force_of_forced _ hforced

theorem called_of_params {c : Closure} {param : String} (hparams : c.params = [param]) (e : Expr)
    (env : Env) : s.called env c [e] = s.addDeferred param e env := by
  rw [Store.called, hparams]
  rfl

/-- The step of both runs, where it ignores what arrives. -/
theorem step_ends {test : Env → Expr → Store → Prop}
    (htest : ∀ env e t, U.Waits U.second t.thunks → test env e t) {alarm : Env → Expr → Eval Value}
    {n : Nat} (hev : U.simulation.Agree (U.heeding n) (.watched test alarm n))
    (hs : U.simulation.Corresponds w s s') (h : s.IgnoresArgument U.scope U.name) :
    U.simulation.Ends w U.simulation.value ((U.heeding n).evalExpr U.scope U.step s)
      ((Evaluator.watched test alarm n).evalExpr U.scope U.step s') := by
  obtain ⟨c, param, hrefers, hparams, hne, hbody⟩ := h
  obtain ⟨hrefers', hlike⟩ := refersTo_of_corresponds hs hrefers
  have hcallee : (U.heeding n).eval U.scope (.sym U.name U.at_) s = _ :=
    eval_callee (fun _ h => by cases h) hrefers n
  have hcallee' : (Evaluator.watched test alarm n).eval U.scope (.sym U.name U.at_) s' = _ :=
    eval_callee (htest _ _ _ hs.lone.second) hrefers' n
  show U.simulation.Ends w U.simulation.value
    (((U.heeding n).eval U.scope (.sym U.name U.at_) >>= fun f => _) s)
    (((Evaluator.watched test alarm n).eval U.scope (.sym U.name U.at_) >>= fun f => _) s')
  split at hcallee
  -- at the lowest level both runs give up
  · next hzero =>
    rw [if_pos hzero] at hcallee'
    rw [Eval.bind_of_outOfFuel hcallee, Eval.bind_of_outOfFuel hcallee']
    exact .inr ⟨w, (worlds_simulation U).refl w, hs, .outOfFuel⟩
  · next hsucc =>
    rw [if_neg hsucc] at hcallee'
    rw [Eval.bind_of_ok hcallee, Eval.bind_of_ok hcallee']
    have harity : c.params.length = [Expr.sym placeholder U.dot].length := by rw [hparams]; rfl
    have hframe : s'.nextFrame = s.nextFrame := congrArg FrameId.mk hs.frames
    rw [Evaluator.applyCall_closure harity, Evaluator.applyCall_closure harity,
      called_of_params hparams, called_of_params hparams, hframe]
    -- else both call the same closure, in a world that knows the argument of this call
    have hle := World.le_call hs.sized hne
    have hcalled : U.Called w c c := by
      cases hlike with
      | closure hc => exact hc
    have hinner : U.Met (w.call s hne) (c.env.within s.nextFrame) := by
      have hmet := hcalled.met.within hs.sized
      exact ⟨hmet.root, hmet.frames, hmet.shielded⟩
    have hcode : Ignores (w.call s hne) (c.env.within s.nextFrame) c.body := by
      refine ⟨hinner.frames, fun a ha hsees hbare => ?_⟩
      rcases List.mem_cons.1 ha with rfl | ha
      · exact hbody
      · exact (hcalled.ignores.within hs.sized).unread a ha hsees hbare
    rcases hev.eval hinner ⟨rfl, hcode⟩ _ _ (corresponds_call hs hne U.dot) with
      hlost | ⟨w', hle', hend⟩
    · exact .inl hlost
    · exact .inr ⟨w', hle.trans hle', hend⟩

/-! ### All levels -/

/-- Nothing but the step is evaluated in its environment. -/
theorem not_met_scope : ¬ U.Met w U.scope := by
  intro h
  obtain ⟨count, hcount⟩ : ∃ count, U.first.length = count + 1 :=
    ⟨U.first.length - 1, by have := List.length_pos_iff.2 U.first_ne_nil; omega⟩
  have hown : U.scope.own = ⟨U.base.frames + count⟩ := by
    rw [scope, stage, hcount]
    exact Env.own_stages _ _ _
  have hstage : U.IsStage U.scope.own := by
    rw [hown]
    exact ⟨Nat.le_add_right _ _, by show U.base.frames + count < _; omega⟩
  obtain ⟨-, hguard⟩ := h.shielded [] U.scope.own U.scope.outer rfl hstage
  cases hguard

/-- What has been shown of code that heeds the name holds of the run that stops where it does not.
-/
theorem relates_guarded {test : Env → Expr → Store → Prop}
    (htest : ∀ env e t, U.Waits U.second t.thunks → test env e t) {alarm : Env → Expr → Eval Value}
    {ev other : Evaluator} {env : Env} {e : Expr}
    (h : ∀ s s', U.simulation.Corresponds w s s' → U.Heeds env e s →
      U.simulation.Ends w U.simulation.value (ev.eval env e s) (other.eval env e s')) :
    U.simulation.Relates w U.simulation.value
      ((ev.guarded U.Heeds fun _ _ s => (U.alarm, s)).eval env e)
      ((other.guarded test alarm).eval env e) := by
  intro s s' hs
  rw [Evaluator.eval_guarded_of_test (htest env e s' hs.lone.second)]
  by_cases hheeds : U.Heeds env e s
  · have hleft : (ev.guarded U.Heeds fun _ _ s => (U.alarm, s)).eval env e s = ev.eval env e s :=
      Evaluator.eval_guarded_of_test hheeds ev
    rw [hleft]
    exact h s s' hs hheeds
  · have hleft : (ev.guarded U.Heeds fun _ _ s => (U.alarm, s)).eval env e s = (U.alarm, s) :=
      Evaluator.eval_guarded_of_not_test hheeds ev
    rw [hleft]
    -- the first run stops, and so is lost on the second one
    rcases halarm : U.alarm with v | e | _
    · exact absurd halarm (U.alarm_ne_ok v)
    · exact .inl (.inl ⟨e, rfl, halarm⟩)
    · exact .inl (.inr (.inl ⟨halarm, rfl⟩))

/-- The two runs agree at every level, whatever test the second one is watched with that holds as
long as its expressions wait. -/
theorem agree {test : Env → Expr → Store → Prop}
    (htest : ∀ env e t, U.Waits U.second t.thunks → test env e t) (alarm : Env → Expr → Eval Value)
    (n : Nat) : U.simulation.Agree (U.heeding n) (.watched test alarm n) := by
  have hheeds : ∀ {w env e} (s : Store), U.Met w env → U.Heeds env e s :=
    fun s hmet hscope => absurd (hscope ▸ hmet) not_met_scope
  induction n with
  | zero =>
    have hidle := Simulation.agree_idle (worlds_simulation U)
    refine ⟨fun henv he => ?_, fun h => ?_, fun _ h => h.elim, fun henv hf hargs =>
      hidle.apply henv hf hargs⟩
    · obtain ⟨rfl, he⟩ := he
      exact relates_guarded htest fun s s' hs _ => hidle.eval henv ⟨rfl, he⟩ s s' hs
    · obtain ⟨rfl, rfl, rfl⟩ := h
      exact relates_guarded htest fun s s' hs _ =>
        .inr ⟨_, (worlds_simulation U).refl _, hs, .outOfFuel⟩
  | succ n ih =>
    -- ordinary code, the step itself, and functions
    refine ⟨fun henv he => ?_, fun h => ?_, fun _ h => h.elim, fun henv hf hargs =>
      ih.applyValue (sound_simulation U) (chains ih) henv hf hargs⟩
    · obtain ⟨rfl, he⟩ := he
      exact relates_guarded htest fun s s' hs _ =>
        ih.evalExpr (sound_simulation U) (lookups ih) (chains ih) henv ⟨rfl, he⟩ s s' hs
    · obtain ⟨rfl, rfl, rfl⟩ := h
      exact relates_guarded htest fun s s' hs hheed => step_ends htest ih hs (hheed rfl rfl)

/-! ### The beginning -/

/-- The chain of a run. -/
def chain (U : Unread) (es : List Expr) : List Expr := es ++ U.step :: U.after

/-- The step, if it waits in a stage too. -/
def waitingStep (U : Unread) : List Expr := if U.after = [] then [] else [U.step]

/-- The steps that do not wait when the first one of them is evaluated. -/
def remaining (U : Unread) : List Expr := if U.after = [] then [U.step] else U.after

/-- The store with the stages of all that waits. -/
def begun (U : Unread) (es : List Expr) (s : Store) : Store :=
  (s.addStages U.env (es ++ U.waitingStep)).2

/-- The world in which nothing has been called yet. -/
def start (U : Unread) (s : Store) : World := ⟨(U.begun U.first s).sizes, []⟩

/-- How many stages there are. -/
def count (U : Unread) : Nat := U.first.length + U.waitingStep.length

theorem count_of_ne_nil (hafter : U.after ≠ []) : U.count = U.first.length + 1 := by
  rw [count, waitingStep, if_neg hafter]
  rfl

theorem length_staged {es : List Expr} (hes : es.length = U.first.length) :
    (es ++ U.waitingStep).length = U.count := by
  rw [List.length_append, hes, count]

/-- The stages are made one by one, those that differ and then that of the step. -/
theorem evalLazy_chain (hbase : U.base = s.sizes) {es : List Expr}
    (hes : es.length = U.first.length) (ev : Evaluator) :
    ev.evalLazy U.env (U.chain es) s =
      ev.evalLazy (U.stage U.count) U.remaining (U.begun es s) := by
  have hchain : U.chain es = (es ++ U.waitingStep) ++ U.remaining := by
    rw [chain, waitingStep, remaining]
    split
    · next h => rw [h, List.append_nil]
    · rw [List.append_assoc, List.singleton_append]
  have hne : U.remaining ≠ [] := by
    rw [remaining]
    split
    · exact List.cons_ne_nil _ _
    · next h => exact h
  rw [hchain, Store.evalLazy_append ev hne, Store.fst_addStages, length_staged hes, stage, hbase]
  rfl

/-- To begin a chain changes frames and deferred values alone. -/
theorem begun_fields (U : Unread) (es : List Expr) (s : Store) :
    U.begun es s = { s with
      frames := (U.begun es s).frames
      thunks := (U.begun es s).thunks } :=
  (s.addStages_fields U.env (es ++ U.waitingStep)).1

/-- To begin a chain makes one frame and one deferred value for each stage. -/
theorem sizes_begun (hbase : U.base = s.sizes) {es : List Expr}
    (hes : es.length = U.first.length) :
    (U.begun es s).sizes =
      ⟨U.base.frames + U.count, U.base.thunks + U.count, U.base.inlines⟩ := by
  obtain ⟨hfields, hframes, hthunks⟩ := s.addStages_fields U.env (es ++ U.waitingStep)
  rw [length_staged hes] at hframes hthunks
  have hinlines : (U.begun es s).inlines.size = s.inlines.size :=
    congrArg (fun t => t.inlines.size) hfields
  rw [Store.sizes, hinlines, begun, hframes, hthunks, hbase]
  rfl

theorem le_sizes_start (hbase : U.base = s.sizes) : s.sizes.Le (U.start s).sizes := by
  rw [start, sizes_begun hbase rfl, hbase]
  exact ⟨Nat.le_add_right _ _, Nat.le_add_right _ _, Nat.le_refl _⟩

/-- A stage binds the placeholder to the deferred step before it. -/
theorem binding?_begun (hbase : U.base = s.sizes) {es : List Expr}
    (hes : es.length = U.first.length) (frame : FrameId) (name : String) :
    (U.begun es s).binding? frame name =
      if frame.index < U.base.frames then s.binding? frame name
      else if name = placeholder ∧ frame.index < U.base.frames + U.count then
        some (.deferred ⟨U.base.thunks + (frame.index - U.base.frames)⟩)
      else none := by
  rw [begun, Store.binding?_addStages, length_staged hes, hbase]
  rfl

/-- Each expression waits in its stage. -/
theorem waits_begun (hbase : U.base = s.sizes) (es : List Expr) :
    U.Waits es (U.begun es s).thunks := by
  intro i e hi
  have hthunk := s.thunk?_addStages U.env (es ++ U.waitingStep) ⟨s.thunks.size + i⟩
  have hsome : (es ++ U.waitingStep)[i]? = some e := by
    rw [List.getElem?_append_left (List.getElem?_eq_some_iff.1 hi).1, hi]
  rw [if_neg (Nat.not_lt.2 (Nat.le_add_right _ _)), Nat.add_sub_cancel_left, hsome] at hthunk
  rw [hbase]
  exact hthunk.trans (by rw [stage, hbase]; rfl)

/-- Beyond the stages of the expressions there is at most the one of the step. -/
theorem thunk?_begun (hbase : U.base = s.sizes) {es : List Expr}
    (hes : es.length = U.first.length) {id : ThunkId} (hid : ¬ U.IsWaiting id) :
    (U.begun es s).thunk? id =
      if id.index < U.base.thunks then s.thunk? id
      else if U.after ≠ [] ∧ id.index = U.base.thunks + U.first.length then
        some (.pending U.step U.scope)
      else none := by
  have hsize : s.thunks.size = U.base.thunks := by rw [hbase]; rfl
  have hframes : s.frames.size = U.base.frames := by rw [hbase]; rfl
  rw [begun, Store.thunk?_addStages, hsize, hframes]
  by_cases hold : id.index < U.base.thunks
  · rw [if_pos hold, if_pos hold]
  -- the steps that wait are the only ones that could differ
  · have hbeyond : U.first.length ≤ id.index - U.base.thunks :=
      Nat.not_lt.1 fun hlt => hid ⟨by omega, by omega⟩
    rw [if_neg hold, if_neg hold, List.getElem?_append_right (hes ▸ hbeyond), hes, waitingStep]
    by_cases hafter : U.after = []
    · rw [if_pos hafter, if_neg fun h => h.1 hafter]
      rfl
    · rw [if_neg hafter, List.getElem?_singleton]
      by_cases hlast : id.index = U.base.thunks + U.first.length
      · have hsub : id.index - U.base.thunks = U.first.length := by omega
        rw [hsub, Nat.sub_self, if_pos rfl, if_pos ⟨hafter, hlast⟩]
        rfl
      · rw [if_neg (by omega), if_neg fun h => hlast h.2]
        rfl

/-! ### The beginnings correspond -/

/-- An environment that was there before sees no stage. -/
theorem met_of_hasFrames (hbase : U.base = s.sizes) {env : Env} (h : s.HasFrames env) :
    U.Met (U.start s) env where
  root := by
    rw [hbase]
    exact h _ (List.getLast_mem _)
  frames := Sizes.HasFrames.of_le (le_sizes_start hbase) h
  shielded before frame after hvisible hstage := by
    have hlt := h frame (by rw [hvisible]; simp)
    rw [IsStage, hbase] at hstage
    exact absurd hlt (Nat.not_lt.2 hstage.1)

/-- At the start there are no arguments to be ignored. -/
theorem ignores_start {env : Env} (h : (U.start s).sizes.HasFrames env) (e : Expr) :
    Ignores (U.start s) env e where
  frames := h
  unread a ha := by cases ha

/-- So do the functions in a value that was there. -/
theorem like_of_runs (hbase : U.base = s.sizes) {v : Value}
    (hv : v.Runs fun c => s.HasFrames c.env) : v.Like (U.likeness (U.start s)) v :=
  Value.Like.refl (fun _ => Or.inl trivial) (fun _ => trivial) fun c hc =>
    have hmet := met_of_hasFrames hbase (hv c hc)
    ⟨rfl, hmet, ignores_start hmet.frames _⟩

/-- What a name is bound to at the beginning. -/
theorem slot_start (hs : s.Placed) (hbase : U.base = s.sizes) {es : List Expr}
    (hes : es.length = U.first.length) {frame : FrameId} {name : String} {b : Binding}
    (hb : (U.begun es s).binding? frame name = some b) : U.Slot (U.start s) frame name b b := by
  have hthunks : (U.start s).sizes.thunks = U.base.thunks + U.count :=
    congrArg Sizes.thunks (sizes_begun hbase rfl)
  rw [binding?_begun hbase hes] at hb
  split at hb
  · refine .same ?_
    cases b with
    | value v => exact .value (like_of_runs hbase (hs.code.bound hb))
    | deferred id =>
      have hlt : id.index < U.base.thunks := by
        rw [hbase]
        exact hs.deferred hb
      exact .deferred ⟨rfl, by omega, fun h => by cases h; omega, fun a ha => by cases ha⟩
  · split at hb
    · next hnew hstage =>
      cases hb
      by_cases hexpr : frame.index < U.base.frames + U.first.length
      · exact .stage ⟨by omega, hexpr⟩ hstage.1 rfl
      -- the stage of the step, which is demanded
      · refine .same (.deferred ⟨rfl, ?_, fun h => ?_, fun a ha => by cases ha⟩)
        · show U.base.thunks + (frame.index - U.base.frames) < _
          omega
        · have hlt : U.base.thunks + (frame.index - U.base.frames) < _ := h.2
          omega
    · cases hb

/-- What a deferred value that may be demanded is at the beginning. -/
theorem state_start (hs : s.Placed) (hbase : U.base = s.sizes) {es : List Expr}
    (hes : es.length = U.first.length) {id : ThunkId} (hid : ¬ U.IsWaiting id) {t : Thunk}
    (ht : (U.begun es s).thunk? id = some t) : U.simulation.State (U.start s) t t := by
  rw [thunk?_begun hbase hes hid] at ht
  split at ht
  · cases t with
    | pending e env =>
      have hmet := met_of_hasFrames hbase (hs.code.pending ht)
      exact .pending hmet ⟨rfl, ignores_start hmet.frames e⟩
    | evaluating => exact .evaluating
    | forced v => exact .forced (like_of_runs hbase (hs.code.forced ht))
  · split at ht
    · cases ht
      exact .exceptional ⟨rfl, rfl, rfl⟩
    · cases ht

/-- The runs begin with the same stages, but for the expressions that wait in them. -/
theorem corresponds_start (hs : s.Placed) (hbase : U.base = s.sizes) :
    U.simulation.Corresponds (U.start s) (U.begun U.first s) (U.begun U.second s) := by
  have hsizes := sizes_begun hbase (rfl : U.first.length = _)
  have hsizes' : (U.begun U.second s).sizes = (U.begun U.first s).sizes :=
    (sizes_begun hbase U.length_eq).trans hsizes.symm
  have hfields := U.begun_fields U.first s
  have hfields' := U.begun_fields U.second s
  have hlength : U.first.length ≤ U.count := Nat.le_add_right _ _
  exact {
    sized := by
      refine ⟨rfl, ?_, ?_, fun a ha => by cases ha⟩ <;> rw [hsizes] <;>
        exact Nat.add_le_add_left hlength _
    frames := congrArg Sizes.frames hsizes'
    -- both begin with the same frames, as there are equally many steps
    bindings := fun frame name => by
      rw [binding?_begun hbase U.length_eq, ← binding?_begun hbase rfl]
      exact Simulation.optionRel_self fun b hb => slot_start hs hbase rfl hb
    kept := fun frame name hkept => by
      obtain ⟨hafter, rfl, rfl⟩ := hkept
      have hcount := count_of_ne_nil hafter
      rw [binding?_begun hbase rfl, guard, if_neg (by simp), if_pos ⟨rfl, by simp [hcount]⟩]
      rfl
    thunks := fun id id' hid => by
      rw [hid.eq, thunk?_begun hbase U.length_eq hid.stage, ← thunk?_begun hbase rfl hid.stage]
      exact Simulation.optionRel_self fun t ht => state_start hs hbase rfl hid.stage ht
    thunkSizes := (congrArg Sizes.thunks hsizes').symm
    inlines := fun ref ref' href => by
      obtain rfl : ref = ref' := href
      rw [Store.inline?, Store.inline?, hfields, hfields']
      exact Simulation.optionRel_self fun v hv => like_of_runs hbase (hs.code.spliced hv)
    inlineSizes := (congrArg Sizes.inlines hsizes').symm
    lone := {
      first := waits_begun hbase U.first
      second := waits_begun hbase U.second
      size := congrArg Sizes.thunks hsizes'
      same := fun id hid =>
        (thunk?_begun hbase U.length_eq hid).trans (thunk?_begun hbase rfl hid).symm }
    functions := by rw [hfields, hfields']
    depth := by rw [hfields, hfields']
    printed := by rw [hfields, hfields'] }

/-! ### The runs -/

/-- What follows the step is evaluated from within the step's own stage. -/
theorem met_after (hbase : U.base = s.sizes) (hafter : U.after ≠ []) :
    U.Met (U.start s) (U.stage (U.first.length + 1)) where
  root := by
    rw [stage, Env.rootFrame_stages]
    exact U.lt_base _ (List.getLast_mem _)
  frames frame hframe := by
    have hsize : (U.start s).sizes.frames = U.base.frames + (U.first.length + 1) :=
      (congrArg Sizes.frames (sizes_begun hbase rfl)).trans (by rw [count_of_ne_nil hafter])
    rw [hsize]
    rcases Env.mem_visible_stages.1 hframe with hold | ⟨-, hlt⟩
    · exact Nat.lt_of_lt_of_le (U.lt_base frame hold) (Nat.le_add_right _ _)
    · exact hlt
  shielded before frame after hvisible hstage := by
    refine ⟨hafter, ?_⟩
    rw [stage, Env.stages_succ, Env.visible_within] at hvisible
    rcases List.cons_eq_append_iff.1 hvisible with ⟨rfl, hcons⟩ | ⟨before, rfl, -⟩
    · obtain ⟨rfl, -⟩ := List.cons.inj hcons
      exact absurd hstage.2 (Nat.lt_irrefl _)
    · exact List.mem_cons_self

/-- The two runs of the chain, the second one watched with any test that holds as long as its
expressions wait. -/
theorem ends (hs : s.Placed) (hbase : U.base = s.sizes) {test : Env → Expr → Store → Prop}
    (htest : ∀ env e t, U.Waits U.second t.thunks → test env e t) (alarm : Env → Expr → Eval Value)
    (n : Nat) :
    U.simulation.Ends (U.start s) U.simulation.value
      ((U.heeding n).evalLazy U.env (U.chain U.first) s)
      ((Evaluator.watched test alarm n).evalLazy U.env (U.chain U.second) s) := by
  have hagree := U.agree htest alarm n
  have hstart := corresponds_start hs hbase
  rw [evalLazy_chain hbase rfl, evalLazy_chain hbase U.length_eq, remaining]
  split
  · next hafter =>
    have hcount : U.count = U.first.length := by rw [count, waitingStep, if_pos hafter]; rfl
    rw [hcount]
    exact hagree.exceptional ⟨rfl, rfl, rfl⟩ _ _ hstart
  · next hafter =>
    rw [count_of_ne_nil hafter]
    have hmet := met_after hbase hafter
    have hcodes : List.Forall₂ (U.simulation.code (U.start s) (U.stage (U.first.length + 1)))
        U.after U.after :=
      List.forall₂_same.2 fun e _ => ⟨rfl, ignores_start hmet.frames e⟩
    exact hagree.evalLazy (sound_simulation U) hmet hcodes _ _ hstart

/-! ### What the end tells -/

/-- Bindings that correspond are equal. -/
theorem eq_of_slot {frame : FrameId} {name : String} {b b' : Binding}
    (h : U.Slot w frame name b b') : b' = b := by
  cases h with
  | same h =>
    cases h with
    | value hv => rw [eq_of_like hv]
    | deferred hid => rw [hid.eq]
  | stage | argument => rfl

/-- Outcomes that correspond are equal. -/
theorem eq_of_outcomes {r r' : Outcome EvalError Value}
    (h : Outcome.Alike (EvalError.Alike Eq) (U.simulation.value w) r r') : r' = r := by
  cases h with
  | ok hv => rw [eq_of_like hv]
  | error he => rw [he.eq]
  | outOfFuel => rfl

/-- Stores that correspond are the same but for the expressions that wait. -/
theorem sameBut_of_corresponds (h : U.simulation.Corresponds w s s') :
    s.SameBut U.IsWaiting s' where
  printed := h.printed
  bindings frame name := Simulation.eq_of_optionRel (fun _ _ => eq_of_slot) (h.bindings frame name)
  thunks := h.lone.same
  inlines ref := Simulation.eq_of_optionRel (fun _ _ => eq_of_like) (h.inlines ref ref rfl)
  functions := h.functions
  depth := h.depth

/-- The first run, if it may be watched with any alarm. -/
theorem evalLazy_heeding {n : Nat}
    (h : Evaluator.Throughout U.Heeds n (fun ev => ev.evalLazy U.env (U.chain U.first)) s) :
    ((U.heeding n).evalLazy U.env (U.chain U.first) s).1 =
      ((Evaluator.level n).evalLazy U.env (U.chain U.first) s).1 :=
  h _

/-- With an error for an alarm that is not the outcome of the first run, the outcomes are the
same. -/
theorem outcome_eq (hs : s.Placed) (hbase : U.base = s.sizes) {n : Nat}
    (h : Evaluator.Throughout U.Heeds n (fun ev => ev.evalLazy U.env (U.chain U.first)) s)
    {e : EvalError} (halarm : U.alarm = .error e)
    (hne : ((Evaluator.level n).evalLazy U.env (U.chain U.first) s).1 ≠ .error e)
    {test : Env → Expr → Store → Prop}
    (htest : ∀ env e t, U.Waits U.second t.thunks → test env e t)
    (alarm : Env → Expr → Eval Value) :
    ((Evaluator.watched test alarm n).evalLazy U.env (U.chain U.second) s).1 =
      ((Evaluator.level n).evalLazy U.env (U.chain U.first) s).1 := by
  rw [← evalLazy_heeding h] at hne ⊢
  rcases U.ends hs hbase htest alarm n with (⟨e', he', hmay⟩ | ⟨hgive, -⟩ | ⟨hno, -⟩) |
    ⟨_, -, -, hend⟩
  · obtain rfl : e = e' := Outcome.error.inj (halarm.symm.trans hmay)
    exact absurd he' hne
  · cases halarm.symm.trans hgive
  · exact hno.elim
  · exact eq_of_outcomes hend

/-- When it gives up for an alarm and yet ends, the stores correspond. -/
theorem stores_correspond (hs : s.Placed) (hbase : U.base = s.sizes) {n : Nat}
    (h : Evaluator.Throughout U.Heeds n (fun ev => ev.evalLazy U.env (U.chain U.first)) s)
    (halarm : U.alarm = .outOfFuel)
    (hne : ((Evaluator.level n).evalLazy U.env (U.chain U.first) s).1 ≠ .outOfFuel) :
    ∃ w, U.simulation.Corresponds w ((Evaluator.level n).evalLazy U.env (U.chain U.first) s).2
      ((Evaluator.level n).evalLazy U.env (U.chain U.second) s).2 := by
  -- the run that is watched is the plain one, as it has not given up
  have hplain : (U.heeding n).evalLazy U.env (U.chain U.first) s =
      (Evaluator.level n).evalLazy U.env (U.chain U.first) s := by
    have hgive : (fun (_ : Env) (_ : Expr) (s : Store) => (U.alarm, s)) =
        fun _ _ => Eval.giveUp := by
      rw [halarm]
      rfl
    have hout := evalLazy_heeding h
    rw [heeding, hgive] at hout ⊢
    exact Evaluator.evalLazy_watched_eq (hout ▸ hne)
  have htrue : ∀ (env : Env) (e : Expr) (t : Store), U.Waits U.second t.thunks → True :=
    fun _ _ _ _ => trivial
  have hends := U.ends hs hbase htrue (fun _ _ => .giveUp) n
  rw [hplain, Evaluator.watched_of_forall fun _ _ _ => trivial] at hends
  rcases hends with (⟨e, -, hmay⟩ | ⟨-, hout⟩ | ⟨hno, -⟩) | ⟨w, -, hstore, -⟩
  · cases halarm.symm.trans hmay
  · exact absurd hout hne
  · exact hno.elim
  · exact ⟨w, hstore⟩

end Unread

/-! ### The steps do not matter -/

/-- The expressions wait in the stages of a chain that begins in the store. -/
def Store.Waiting (s : Store) (env : Env) (es : List Expr) (t : Store) : Prop :=
  ∀ i e, es[i]? = some e →
    t.thunk? ⟨s.thunks.size + i⟩ = some (.pending e (env.stages s.frames.size i))

/-- A chain that is evaluated on demand, in which a step calls a name on the placeholder.  Whenever
that step is evaluated, let the name refer to a closure whose one parameter, other than the
placeholder, does not occur in its body.  Then the expressions before the step may be exchanged for
as many others: the chain ends in the same way, and in the same store but for these expressions,
which wait in their stages from the first evaluation on to the end. -/
theorem unread_steps_do_not_matter {s : Store} (hs : s.Placed) {env : Env} (henv : s.HasFrames env)
    {before before' : List Expr} (hne : before ≠ []) (hlength : before'.length = before.length)
    (name : String) (at_ dot span : Span) (after : List Expr) (n : Nat) :
    let scope := (s.addStages env before).1
    let step : Expr := .call (.sym name at_) [.sym placeholder dot] span
    let run (es : List Expr) (ev : Evaluator) := ev.evalLazy env (es ++ step :: after)
    let ran := run before (.level n) s
    let ran' := run before' (.level n) s
    let heeds (inner : Env) (e : Expr) (t : Store) :=
      inner = scope → e = step → t.IgnoresArgument inner name
    Evaluator.Throughout heeds n (run before) s →
      ran'.1 = ran.1 ∧
        Evaluator.Throughout (fun _ _ t => s.Waiting env before t) n (run before) s ∧
        Evaluator.Throughout (fun _ _ t => s.Waiting env before' t) n (run before') s ∧
        (ran.1 ≠ .outOfFuel → s.Waiting env before ran.2 ∧ s.Waiting env before' ran'.2 ∧
          ran.2.SameBut (fun id => s.thunks.size ≤ id.index ∧
            id.index < s.thunks.size + before.length) ran'.2) := by
  intro scope step run ran ran' heeds hheeds
  have hscope : scope = env.stages s.frames.size before.length := s.fst_addStages env before
  simp only [heeds, hscope] at hheeds
  let U (es : List Expr) (hes : es.length = before.length) (alarm : Outcome EvalError Value)
      (halarm : ∀ v, alarm ≠ .ok v) : Unread :=
    { env, base := s.sizes, lt_base := henv, first := before, first_ne_nil := hne, second := es
      length_eq := hes, name, at_, dot, span, after, alarm, alarm_ne_ok := halarm }
  -- an error that is not the outcome, to tell the two apart
  obtain ⟨e, he⟩ : ∃ e, ran.1 ≠ .error e := by
    by_contra! hall
    cases (hall (.notFunction "")).symm.trans (hall (.assignTarget ""))
  have houtcome : ∀ es, es.length = before.length → ∀ {test : Env → Expr → Store → Prop},
      (∀ env' e t, s.Waiting env es t → test env' e t) → ∀ alarm,
        (run es (.watched test alarm n) s).1 = ran.1 := by
    intro es hes test htest alarm
    exact Unread.outcome_eq (U := U es hes (.error e) (by rintro v ⟨⟩)) hs rfl hheeds rfl he htest
      alarm
  have hsame : ran'.1 = ran.1 := by
    have htrue : ∀ (env' : Env) (e : Expr) (t : Store), s.Waiting env before' t → True :=
      fun _ _ _ _ => trivial
    have hplain := houtcome before' hlength htrue fun _ _ => .giveUp
    rw [Evaluator.watched_of_forall fun _ _ _ => trivial] at hplain
    exact hplain
  refine ⟨hsame, houtcome before rfl fun _ _ _ h => h, fun alarm => ?_, fun hout => ?_⟩
  · exact (houtcome before' hlength (fun _ _ _ h => h) alarm).trans hsame.symm
  · obtain ⟨w, hstores⟩ :=
      Unread.stores_correspond (U := U before' hlength .outOfFuel (by rintro v ⟨⟩)) hs rfl hheeds
        rfl hout
    exact ⟨hstores.lone.first, hstores.lone.second, Unread.sameBut_of_corresponds hstores⟩

/-- A function that is constant, after a step that would fail. -/
theorem constant_skips_failing_step :
    let env : Env := ⟨⟨1⟩, [⟨0⟩], .auto⟩
    let dot : Expr := .sym placeholder .nowhere
    let int (n : Int64) : Expr := .lit (.int n) .nowhere
    let step : Expr := .call (.sym "g" .nowhere) [dot] .nowhere
    let constant : Closure := ⟨⟨0⟩, ["x"], int 7, env⟩
    let s := (Store.empty.addFrame []).addFrame [("g", .value (.closure constant))]
    let run (es : List Expr) := (Evaluator.level 3).evalLazy env (es ++ step :: [dot]) s
    let failing : List Expr := [.sym "y" .nowhere]
    s.Placed ∧ s.HasFrames env ∧ (run failing).1 = .ok (.int 7) ∧
      (run [int 2]).1 = (run failing).1 ∧ s.Waiting env failing (run failing).2 := by
  intro env dot int step constant s run failing
  have henv : s.HasFrames env := by decide
  have hs : s.Placed := by
    have hroot : (Store.empty.addFrame []).Placed := Store.Placed.empty.addFrame (by rintro _ _ ⟨⟩)
    refine hroot.addFrame fun name b hget => ?_
    obtain ⟨-, rfl⟩ := Prod.mk.inj (List.mem_singleton.1 (Fields.mem_of_get? hget))
    exact ⟨_, rfl, Value.runs_closure.2 henv⟩
  have hvalue : (run failing).1 = .ok (.int 7) := rfl
  let scope : Env := (s.addStages env failing).1
  let test (inner : Env) (e : Expr) (t : Store) : Prop :=
    inner = scope → e = step → t.IgnoresArgument inner "g"
  have hheeds : Evaluator.Throughout test 3
      (fun ev => ev.evalLazy env (failing ++ step :: [dot])) s := by
    -- each evaluation on the way is entered as it is, as none of them is the step but the one whose
    -- name is checked
    intro alarm
    let u : Store := (s.addStages env (failing ++ [step])).2
    let t : Store := u.enter ⟨1⟩
    let ev := Evaluator.watched test alarm
    have hentry : ∀ n inner e t, e ≠ step →
        (ev (n + 1)).eval inner e t = (ev n).evalExpr inner e t :=
      fun n _ _ _ he => Evaluator.eval_watched_of_test (fun _ heq => absurd heq he) n
    have hcallee : (ev 1).eval scope (.sym "g" .nowhere) t = (.ok (.closure constant), t) :=
      (hentry 0 _ _ _ (by simp [step])).trans rfl
    have hbody : (ev 1).eval (env.within t.nextFrame) (int 7) (t.called scope constant [dot]) =
        (.ok (.int 7), t.called scope constant [dot]) :=
      (hentry 0 _ _ _ (by simp [step, int])).trans rfl
    have hstep : (ev 2).eval scope step t = (.ok (.int 7), t.called scope constant [dot]) := by
      have hignores : t.IgnoresArgument scope "g" :=
        ⟨constant, "x", .inl rfl, rfl, by decide, rfl⟩
      have htest : (ev 2).eval scope step t = (ev 1).evalExpr scope step t :=
        Evaluator.eval_watched_of_test (fun _ _ => hignores) 1
      rw [htest]
      exact (Eval.bind_of_ok hcallee).trans ((Evaluator.applyCall_closure rfl _).trans hbody)
    have hpending : u.thunk? ⟨1⟩ = some (.pending step scope) := rfl
    have hforce : ((ev 2).force ⟨1⟩ u).1 = .ok (.int 7) := by
      rw [Evaluator.force_of_pending _ hpending (by decide), hstep]
    have hdot : (ev 3).eval (s.addStages env (failing ++ [step])).1 dot u = (ev 2).force ⟨1⟩ u :=
      (hentry 2 _ _ _ (by simp [step, dot])).trans
        (Evaluator.lookup_of_resolve _ (b := .deferred ⟨1⟩) rfl)
    have hchain : (ev 3).evalLazy env (failing ++ step :: [dot]) s =
        (ev 3).eval (s.addStages env (failing ++ [step])).1 dot u :=
      Store.evalLazy_append (ev 3) (List.cons_ne_nil dot []) (failing ++ [step]) env s
    show ((ev 3).evalLazy env (failing ++ step :: [dot]) s).1 = (run failing).1
    rw [hchain, hdot, hforce, hvalue]
  have hlength : [int 2].length = failing.length := rfl
  obtain ⟨hsame, -, -, hstores⟩ := unread_steps_do_not_matter hs henv (List.cons_ne_nil _ _)
    hlength "g" .nowhere .nowhere .nowhere [dot] 3 hheeds
  obtain ⟨hwaiting, -, -⟩ := hstores fun hout => by cases hvalue.symm.trans hout
  exact ⟨hs, henv, hvalue, hsame, hwaiting⟩

/-- A later step that assigns to the name another function, which reads what arrives; and a function
whose parameter is the placeholder, which is read in its body by way of a chain. -/
theorem unread_steps_matter_if_reassigned :
    let env := (globalEnv .auto).1
    let sym (name : String) : Expr := .sym name .nowhere
    let int (n : Int64) : Expr := .lit (.int n) .nowhere
    let call (name : String) (args : List Expr) : Expr := .call (sym name) args .nowhere
    let assign (name : String) (scope : AssignScope) (e : Expr) : Expr :=
      .assign (sym name) e scope .nowhere
    let defined (stmts : List Expr) : Store :=
      ((Evaluator.level 4).evalStatements env stmts (globalEnv .auto).2).2
    let print : Expr := call "print" [int 1]
    let run (s : Store) (e : Expr) (after : List Expr) :=
      (Evaluator.level 12).evalLazy env ([e] ++ call "g" [sym placeholder] :: after) s
    let s := defined [assign "g" .inner (.lambda ["x"] (int 7) .nowhere)]
    let reassign : Expr :=
      .block [assign "g" .outer (.lambda ["x"] (sym "x") .nowhere), sym placeholder] .nowhere
    let chain : Expr := assign "k" .inner (call "%!>%" [int 1, call "mk" []])
    let t := defined [assign "mk" .inner (.lambda ["x"] (.lambda [] (sym "x") .nowhere) .nowhere),
      assign "g" .inner (.lambda [placeholder] (.block [chain, call "k" []] .nowhere) .nowhere)]
    (∃ c, s.resolve env "g" = .ok (.value (.closure c)) ∧ c.params = ["x"] ∧
      c.body.mentions "x" = false ∧ c.body.mentions placeholder = false) ∧
    (run s print [reassign]).1 = .ok (.int 1) ∧ (run s print [reassign]).2.printed = "1\n" ∧
    (run s (int 2) [reassign]).1 = .ok (.int 2) ∧ (run s (int 2) [reassign]).2.printed = "" ∧
    (∃ c, t.resolve env "g" = .ok (.value (.closure c)) ∧ c.params = [placeholder] ∧
      c.body.mentions placeholder = false) ∧
    (run t print []).1 = .ok (.int 1) ∧ (run t (int 2) []).1 = .ok (.int 2) :=
  ⟨⟨_, rfl, rfl, rfl, rfl⟩, rfl, rfl, rfl, rfl, ⟨_, rfl, rfl, rfl⟩, rfl, rfl⟩

end PipeLang
