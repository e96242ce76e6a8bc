import Mathlib.Data.List.Forall2
import PipeLang.Proofs.Strategies

/-!
# How long a chain may be

Take a chain whose steps only hand over the value that arrives: each is a call, on the placeholder,
of the builtin that answers with its argument or of a closure that answers with its parameter.

On demand the steps are evaluated within one another, from the last one back to the head.  Each
asks for the placeholder, which is one demand, and a closure asks for its parameter before, which
is one more.  So the chain has the value of its head exactly if as many demands may still be nested
(`chain_length_limit`).  Step by step the demands end with their step, and a chain of any length has
its value unless a closure is called where no demand may be nested at all.

For the first half, `Reaches` says how many demands an expression needs, from any store that
continues the one in which it was put into the chain: one stage more needs one or two demands more
(`Reaches.handOver`).  For the second half, `Store.Alongside` says what a step finds and leaves
behind.
-/

namespace PipeLang

/-- The two kinds of steps that hand over the value that arrives. -/
inductive Handover where
  /-- A call of the builtin that answers with its argument. -/
  | builtin
  /-- A call of a closure that answers with its parameter. -/
  | closure
deriving DecidableEq

/-- How many demands are nested around those of the step before. -/
def Handover.demands : Handover → Nat
  | builtin => 1
  | closure => 2

/-- A step of a kind: a call, on the placeholder, of a name that is bound to such a function. -/
inductive HandsOver (s : Store) (env : Env) : Handover → Expr → Prop
  | builtin {name : String} (hname : name ≠ placeholder) (hbare : unqualified? name = none)
      (hbound : s.find? env name = some (.value (.native (.unary .identity))))
      (at_ dot span : Span) :
      HandsOver s env .builtin (.call (.sym name at_) [.sym placeholder dot] span)
  | closure {name param : String} {c : Closure} (hname : name ≠ placeholder)
      (hbare : unqualified? name = none) (hbound : s.find? env name = some (.value (.closure c)))
      (hparams : c.params = [param]) (hparam : unqualified? param = none) {inner : Span}
      (hbody : c.body = .sym param inner) (at_ dot span : Span) :
      HandsOver s env .closure (.call (.sym name at_) [.sym placeholder dot] span)

variable {s t u : Store} {env scope : Env} {kind : Handover} {kinds : List Handover}
  {e step : Expr} {steps : List Expr} {v : Value} {n : Nat} {name : String}

/-- Only the names other than the placeholder matter. -/
theorem HandsOver.of_find?_eq (h : HandsOver s env kind step)
    (hnames : ∀ name, name ≠ placeholder → t.find? scope name = s.find? env name) :
    HandsOver t scope kind step := by
  cases h with
  | builtin hname hbare hbound =>
    exact .builtin hname hbare ((hnames _ hname).trans hbound) _ _ _
  | closure hname hbare hbound hparams hparam hbody =>
    exact .closure hname hbare ((hnames _ hname).trans hbound) hparams hparam hbody _ _ _

/-- How many demands are nested around the head of a chain of such steps. -/
def Handover.demandsOf (kinds : List Handover) : Nat :=
  kinds.count .builtin + 2 * kinds.count .closure

theorem Handover.demandsOf_cons (kind : Handover) (kinds : List Handover) :
    demandsOf (kind :: kinds) = kind.demands + demandsOf kinds := by
  cases kind with
  | builtin => simp [demandsOf, demands]; omega
  | closure => simp [demandsOf, demands]; omega

/-! ### Calls on the placeholder -/

namespace Evaluator

/-- The builtin that answers with its argument evaluates the placeholder. -/
theorem eval_builtin {name : String} (hbare : unqualified? name = none)
    (hbound : s.find? env name = some (.value (.native (.unary .identity)))) (n : Nat)
    (at_ dot span : Span) :
    (level (n + 2)).eval env (.call (.sym name at_) [.sym placeholder dot] span) s =
      (level (n + 1)).eval env (.sym placeholder dot) s := by
  have hcallee : (level (n + 1)).eval env (.sym name at_) s =
      (.ok (.native (.unary .identity)), s) := (level n).lookup_of_find? hbare hbound
  show ((level (n + 1)).eval env (.sym name at_) >>= fun f =>
    (level (n + 1)).applyCall env f [.sym placeholder dot] (.sym name at_)) s = _
  rw [Eval.bind_of_ok hcallee]
  show ((level (n + 1)).evalAll env [.sym placeholder dot] >>= fun vs =>
    (level (n + 1)).apply env (.native (.unary .identity)) vs) s = _
  rw [evalAll, List.mapM_cons, List.mapM_nil]
  rcases hdot : (level (n + 1)).eval env (.sym placeholder dot) s with ⟨r, t⟩
  cases r with
  | ok v =>
    simp only [Eval.bind_apply, hdot]
    rfl
  | error | outOfFuel => simp only [Eval.bind_apply, hdot]

/-- A closure that answers with its parameter demands it, deferred to the placeholder. -/
theorem eval_closure {name param : String} {c : Closure} (hbare : unqualified? name = none)
    (hbound : s.find? env name = some (.value (.closure c))) (hparams : c.params = [param])
    (hparam : unqualified? param = none) {inner : Span} (hbody : c.body = .sym param inner)
    (n : Nat) (at_ dot span : Span) :
    (level (n + 2)).eval env (.call (.sym name at_) [.sym placeholder dot] span) s =
      (level n).force s.nextThunk (s.addDeferred param (.sym placeholder dot) env) := by
  have hcallee : (level (n + 1)).eval env (.sym name at_) s = (.ok (.closure c), s) :=
    (level n).lookup_of_find? hbare hbound
  have harity :
      checkArity (Expr.sym name at_).print (.exactly c.params.length) 1 s = (.ok (), s) := by
    rw [hparams]
    rfl
  show ((level (n + 1)).eval env (.sym name at_) >>= fun f =>
    (level (n + 1)).applyCall env f [.sym placeholder dot] (.sym name at_)) s = _
  rw [Eval.bind_of_ok hcallee]
  show (checkArity _ (.exactly c.params.length) 1 >>= fun _ => _) s = _
  rw [Eval.bind_of_ok harity, hparams, hbody]
  -- the frame of the call binds the parameter and nothing else
  let called : Store := s.addDeferred param (.sym placeholder dot) env
  have hfind : called.find? (c.env.within s.nextFrame) param = some (.deferred s.nextThunk) :=
    Store.find?_within_self (s.bindings_addDeferred param (.sym placeholder dot) env)
  exact (level n).lookup_of_resolve (Store.resolve_of_find? hparam hfind)

end Evaluator

/-! ### On demand -/

/-- Another store in which the frames are as before, and what was pending still is. -/
structure Store.Continues (s t : Store) : Prop where
  grows : s.Grows t
  pending : ∀ {id e env}, s.thunk? id = some (.pending e env) →
    t.thunk? id = some (.pending e env)

namespace Store.Continues

theorem refl (s : Store) : s.Continues s := ⟨Grows.refl s, id⟩

/-- What goes on in two parts goes on as a whole. -/
theorem trans (hst : s.Continues t) (htu : t.Continues u) : s.Continues u :=
  ⟨hst.grows.trans htu.grows, fun h => htu.pending (hst.pending h)⟩

/-- A new stage leaves what was there as it was. -/
theorem addDeferred (s : Store) (name : String) (e : Expr) (env : Env) :
    s.Continues (s.addDeferred name e env) where
  grows := s.grows_addDeferred name e env
  pending h := thunk?_addThunk_of_some (s := s.addFrame []) h e env

/-- The deferred value may be marked. -/
theorem enter (h : (s.addDeferred name e env).Continues t) : s.Continues (t.enter s.nextThunk) where
  grows := ((s.grows_addDeferred name e env).trans h.grows).of_frames_eq rfl
  pending {id e' env'} hid := by
    rw [thunk?_enter_of_ne (ne_nextThunk_of_thunk? hid)]
    exact ((addDeferred s name e env).trans h).pending hid

end Store.Continues

/-- The frame of a stage binds the placeholder and nothing else, also later. -/
theorem Store.bindings_stage (h : (t.addStage scope e).2.Grows u) :
    u.bindings t.nextFrame = [(placeholder, .deferred t.nextThunk)] :=
  (h.bindings (t.lt_size_addDeferred placeholder e scope)).trans
    (t.bindings_addDeferred placeholder e scope)

/-- In the next stage, also later, a step is one of the same kind. -/
theorem HandsOver.addStage (h : HandsOver t scope kind step) (hframes : t.HasFrames scope)
    (hu : (t.addStage scope e).2.Grows u) : HandsOver u (t.addStage scope e).1 kind step := by
  refine h.of_find?_eq fun name hname => ?_
  refine (Store.find?_within_of_ne (Store.bindings_stage hu) hname).trans ?_
  exact ((t.grows_addDeferred placeholder e scope).trans hu).find?_eq hframes name

/-- What comes of nested demands at a depth, if they lead to the value. -/
def nestedOutcome (depth demands : Nat) (v : Value) : Outcome EvalError Value :=
  if depth + demands ≤ depthLimit then .ok v else .error (.tooDeep depthLimit)

/-- The demand of a pending value is one more than those of its expression. -/
theorem force_eq_nestedOutcome {ev : Evaluator} {id : ThunkId} {demands : Nat}
    (h : s.thunk? id = some (.pending e env))
    (heval : s.depth < depthLimit →
      (ev.eval env e (s.enter id)).1 = nestedOutcome (s.depth + 1) demands v) :
    (ev.force id s).1 = nestedOutcome s.depth (demands + 1) v := by
  rcases Nat.lt_or_ge s.depth depthLimit with hlt | hge
  · have hfst : (ev.force id s).1 = (ev.eval env e (s.enter id)).1 := by
      rw [ev.force_of_pending h hlt]
      rcases ev.eval env e (s.enter id) with ⟨r, t⟩
      cases r <;> rfl
    rw [hfst, heval hlt, nestedOutcome, nestedOutcome, Nat.add_assoc, Nat.add_comm 1]
  · rw [ev.force_of_tooDeep h hge]
    exact (if_neg (by omega)).symm

/-- From every store that continues `t`, as many nested demands lead to the value.  The evaluation
of a step is nested in two ways for each of them. -/
def Reaches (t : Store) (scope : Env) (e : Expr) (v : Value) (demands : Nat) : Prop :=
  ∀ u n, t.Continues u → u.depth ≤ depthLimit → 2 * (depthLimit - u.depth) + 2 ≤ n →
    ((Evaluator.level n).eval scope e u).1 = nestedOutcome u.depth demands v

namespace Reaches

variable {demands : Nat}

/-- A literal is there without any demand. -/
theorem literal (t : Store) (scope : Env) (l : Literal) (span : Span) :
    Reaches t scope (.lit l span) l.value 0 := by
  intro u n _ hdepth hn
  obtain ⟨k, rfl⟩ : ∃ k, n = k + 1 := ⟨n - 1, by omega⟩
  exact (if_pos hdepth).symm

/-- In the next stage the placeholder needs one demand more. -/
theorem arrival (h : Reaches t scope e v demands)
    (hu : (t.addStage scope e).2.Continues u) (hn : 2 * (depthLimit - u.depth) + 1 ≤ n)
    (dot : Span) :
    ((Evaluator.level n).eval (t.addStage scope e).1 (.sym placeholder dot) u).1 =
      nestedOutcome u.depth (demands + 1) v := by
  obtain ⟨k, rfl⟩ : ∃ k, n = k + 1 := ⟨n - 1, by omega⟩
  have hresolve : u.resolve (t.addStage scope e).1 placeholder = .ok (.deferred t.nextThunk) :=
    Store.resolve_of_find? rfl (Store.find?_within_self (Store.bindings_stage hu.grows))
  have hpending : u.thunk? t.nextThunk = some (.pending e scope) :=
    hu.pending (t.thunk?_addDeferred_self placeholder e scope)
  show ((Evaluator.level k).lookup (t.addStage scope e).1 placeholder u).1 = _
  rw [Evaluator.lookup_of_resolve _ hresolve]
  refine force_eq_nestedOutcome hpending fun hlt => ?_
  exact h (u.enter t.nextThunk) k hu.enter hlt (by rw [Store.depth_enter]; omega)

/-- A step that hands over needs the demands of its kind more. -/
theorem handOver (h : Reaches t scope e v demands) (hframes : t.HasFrames scope)
    (hstep : HandsOver t scope kind step) :
    Reaches (t.addStage scope e).2 (t.addStage scope e).1 step v (demands + kind.demands) := by
  intro u n hu hdepth hn
  obtain ⟨k, rfl⟩ : ∃ k, n = k + 2 := ⟨n - 2, by omega⟩
  cases hstep.addStage hframes hu.grows with
  | builtin _ hbare hbound at_ dot span =>
    rw [Evaluator.eval_builtin hbare hbound]
    exact h.arrival hu (by omega) dot
  | closure _ hbare hbound hparams hparam hbody at_ dot span =>
    rw [Evaluator.eval_closure hbare hbound hparams hparam hbody]
    -- one demand leads to the placeholder, and those of the placeholder to the value
    refine force_eq_nestedOutcome (u.thunk?_addDeferred_self _ _ _) fun hlt => ?_
    have hlt : u.depth < depthLimit := hlt
    refine h.arrival (hu.trans (Store.Continues.refl _).enter) ?_ dot
    show 2 * (depthLimit - (u.depth + 1)) + 1 ≤ k
    omega

end Reaches

/-- The value of the chain's head on demand, after some steps that hand it over. -/
theorem Reaches.evalLazy {demands : Nat} (h : Reaches t scope e v demands)
    (hframes : t.HasFrames scope) (hsteps : List.Forall₂ (HandsOver t scope) kinds steps)
    (hdepth : t.depth ≤ depthLimit) (hn : 2 * depthLimit + 2 ≤ n) :
    ((Evaluator.level n).evalLazy scope (e :: steps) t).1 =
      nestedOutcome t.depth (demands + Handover.demandsOf kinds) v := by
  induction steps generalizing kinds t scope e demands with
  | nil =>
    cases hsteps
    exact h t n (.refl t) hdepth (by omega)
  | cons step rest ih =>
    cases hsteps with
    | @cons kind _ kinds _ hstep hrest =>
      rw [Handover.demandsOf_cons, ← Nat.add_assoc]
      -- the stage is set up, and the rest of the chain goes on from there
      have hgrows := t.grows_addDeferred placeholder e scope
      have hinner : (t.addStage scope e).2.HasFrames (t.addStage scope e).1 :=
        hframes.within hgrows (t.lt_size_addDeferred placeholder e scope)
      have hnext : List.Forall₂ (HandsOver (t.addStage scope e).2 (t.addStage scope e).1)
          kinds rest := hrest.imp fun _ _ h => h.addStage hframes (.refl _)
      exact ih (h.handOver hframes hstep) hinner hnext hdepth

/-! ### Step by step -/

/-- A store in the course of a chain that is evaluated step by step in an environment: the names
are bound as at the start. -/
structure Store.Alongside (s : Store) (env : Env) (t : Store) : Prop where
  frames : t.HasFrames env
  names : ∀ name, name ≠ placeholder → t.find? env name = s.find? env name
  depth : t.depth = s.depth

namespace Store.Alongside

/-- A value that is bound to the placeholder changes nothing that the steps read. -/
theorem define (h : s.Alongside env t) (v : Value) :
    s.Alongside env (t.define env placeholder v) where
  frames := by
    intro frame hframe
    rw [Store.define, size_frames_bind]
    exact h.frames frame hframe
  names name hname := by
    rw [find?_define_of_ne hname]
    exact h.names name hname
  depth := h.depth

theorem of_grows (h : s.Alongside env t) (hgrows : t.Grows u) (hdepth : u.depth = t.depth) :
    s.Alongside env u where
  frames := h.frames.of_grows hgrows
  names name hname := by
    rw [hgrows.find?_eq h.frames]
    exact h.names name hname
  depth := hdepth.trans h.depth

end Store.Alongside

/-- What comes of handing over step by step: a call of a closure needs a demand to be possible. -/
def handoverOutcome (depth : Nat) (kinds : List Handover) (v : Value) : Outcome EvalError Value :=
  if kinds.count .closure = 0 ∨ depth < depthLimit then .ok v else .error (.tooDeep depthLimit)

/-- A step that hands over, with the value in the environment. -/
theorem HandsOver.eval (hstep : HandsOver s env kind step) (h : s.Alongside env u)
    (hv : u.find? env placeholder = some (.value v)) (hn : 3 ≤ n) :
    ∃ t, (Evaluator.level n).eval env step u = (handoverOutcome s.depth [kind] v, t) ∧
      s.Alongside env t := by
  obtain ⟨k, rfl⟩ : ∃ k, n = k + 3 := ⟨n - 3, by omega⟩
  have hdot : ∀ {t : Store} (n : Nat) (dot : Span), t.find? env placeholder = some (.value v) →
      (Evaluator.level (n + 1)).eval env (.sym placeholder dot) t = (.ok v, t) :=
    fun n _ ht => (Evaluator.level n).lookup_of_find? rfl ht
  cases hstep.of_find?_eq h.names with
  | builtin _ hbare hbound at_ dot span =>
    refine ⟨u, ?_, h⟩
    rw [Evaluator.eval_builtin hbare hbound, hdot _ dot hv]
    rfl
  | @closure _ param _ _ hbare hbound hparams hparam _ hbody at_ dot span =>
    rw [Evaluator.eval_closure hbare hbound hparams hparam hbody]
    -- the parameter is demanded in a frame of its own, which stays behind
    let called : Store := u.addDeferred param (.sym placeholder dot) env
    have hgrows : u.Grows called := u.grows_addDeferred param (.sym placeholder dot) env
    have hpending := u.thunk?_addDeferred_self param (.sym placeholder dot) env
    have hdepth : called.depth = s.depth := h.depth
    rcases Nat.lt_or_ge s.depth depthLimit with hlt | hge
    · let entered : Store := called.enter u.nextThunk
      have hfind : entered.find? env placeholder = some (.value v) :=
        (hgrows.find?_eq h.frames placeholder).trans hv
      refine ⟨entered.leave u.nextThunk (.forced v), ?_,
        h.of_grows (hgrows.of_frames_eq rfl) (Nat.add_sub_cancel _ 1)⟩
      rw [Evaluator.force_of_pending _ hpending (hdepth ▸ hlt), hdot k dot hfind, handoverOutcome,
        if_pos (.inr hlt)]
    · refine ⟨called, ?_, h.of_grows hgrows rfl⟩
      rw [Evaluator.force_of_tooDeep _ hpending (hdepth ▸ hge), handoverOutcome,
        if_neg (by simp; omega)]

/-- The value of the chain's head step by step, after some steps that hand it over. -/
theorem Evaluator.evalSteps_of_handsOver (hn : 3 ≤ n) {e : Expr}
    (he : (level n).eval env e u = (.ok v, t)) (h : s.Alongside env t)
    (hsteps : List.Forall₂ (HandsOver s env) kinds steps) :
    ((level n).evalSteps env (e :: steps) u).1 = handoverOutcome s.depth kinds v := by
  -- by the steps that are left; each of them hands over the value that arrives, or is the first one
  -- that is too deep
  induction hsteps generalizing u t e with
  | nil => rw [evalSteps, he]; exact (if_pos (.inl rfl)).symm
  | @cons kind step kinds rest hstep _ ih =>
    rw [evalSteps_of_ok he]
    obtain ⟨t', hrun, ht'⟩ := hstep.eval (h.define v)
      (Store.find?_define_self (h.frames _ List.mem_cons_self) v) hn
    have hcount :
        (kind :: kinds).count .closure = kinds.count .closure + [kind].count .closure := by
      rw [List.count_cons, List.count_singleton]
    by_cases hok : [kind].count .closure = 0 ∨ s.depth < depthLimit
    · rw [handoverOutcome, if_pos hok] at hrun
      rw [ih hrun ht', handoverOutcome, handoverOutcome, hcount]
      congr 1
      simp only [eq_iff_iff]
      omega
    · rw [handoverOutcome, if_neg hok] at hrun
      rw [evalSteps_of_failed hrun (by rintro _ ⟨⟩), handoverOutcome, if_neg]
      omega

/-! ### Both -/

/-- A chain with a literal as its head and any number of steps that each hand over the value that
arrives, from a depth within the limit.  On demand a builtin step takes one nested demand and a
closure step two: the chain has the value of its head as long as so many demands may still be
nested, and else is nested too deeply.  Step by step it has that value whatever its length, unless
a closure is called at the limit itself.  Either way the depth is what it was. -/
theorem chain_length_limit {s : Store} {env : Env} {l : Literal} {span : Span}
    {kinds : List Handover} {steps : List Expr} {n : Nat} (henv : s.HasFrames env)
    (hdepth : s.depth ≤ depthLimit) (hsteps : List.Forall₂ (HandsOver s env) kinds steps)
    (hn : 2 * depthLimit + 2 ≤ n) :
    ((Evaluator.level n).evalLazy env (.lit l span :: steps) s).1 =
      (if s.depth + kinds.count .builtin + 2 * kinds.count .closure ≤ depthLimit then .ok l.value
        else .error (.tooDeep depthLimit)) ∧
    ((Evaluator.level n).evalEager env (.lit l span :: steps) s).1 =
      (if kinds.count .closure = 0 ∨ s.depth < depthLimit then .ok l.value
        else .error (.tooDeep depthLimit)) ∧
    ((Evaluator.level n).evalLazy env (.lit l span :: steps) s).2.depth = s.depth ∧
    ((Evaluator.level n).evalEager env (.lit l span :: steps) s).2.depth = s.depth := by
  obtain ⟨k, rfl⟩ : ∃ k, n = k + 1 := ⟨n - 1, by omega⟩
  have hhead : (Evaluator.level (k + 1)).eval env (.lit l span) s = (.ok l.value, s) := rfl
  refine ⟨?_, ?_, (s.advances_evalLazy _ _ _).depth, (s.advances_evalEager _ _ _).depth⟩
  · have hlazy := (Reaches.literal s env l span).evalLazy henv hsteps hdepth hn
    rw [hlazy, nestedOutcome, Nat.zero_add, Handover.demandsOf, Nat.add_assoc]
  · have hstart : s.Alongside env s := ⟨henv, fun _ _ => rfl, rfl⟩
    rw [Evaluator.evalEager_fst]
    exact Evaluator.evalSteps_of_handsOver (Nat.le_trans (by decide) hn) hhead hstart hsteps

/-- Three demands may still be nested: a builtin step and a closure step need them all, and two
closure steps one more, but step by step both chains have their value. -/
theorem length_limit_of_two_steps :
    let env : Env := ⟨⟨1⟩, [⟨0⟩], .auto⟩
    let keep : Closure := ⟨⟨0⟩, ["x"], .sym "x" .nowhere, env⟩
    let s : Store := { Store.empty with
      frames := #[[("identity", .value (.native (.unary .identity)))],
        [("f", .value (.closure keep))]]
      functions := 1
      depth := 125 }
    let one : Expr := .lit (.int 1) .nowhere
    let step (name : String) : Expr :=
      .call (.sym name .nowhere) [.sym placeholder .nowhere] .nowhere
    let ev : Evaluator := .interpreter
    (ev.evalLazy env [one, step "identity", step "f"] s).1 = .ok (.int 1) ∧
    (ev.evalLazy env [one, step "f", step "f"] s).1 = .error (.tooDeep 128) ∧
    (ev.evalEager env [one, step "f", step "f"] s).1 = .ok (.int 1) := by
  intro env keep s one step ev
  have henv : s.HasFrames env := by decide
  -- a builtin takes one demand, and a closure two
  have hidentity : HandsOver s env .builtin (step "identity") :=
    .builtin (by decide) rfl rfl _ _ _
  have hkeep : HandsOver s env .closure (step "f") :=
    .closure (c := keep) (by decide) rfl rfl rfl rfl rfl _ _ _
  have hn : 2 * depthLimit + 2 ≤ Evaluator.nestingLimit := by decide
  have hchain := fun {kinds : List Handover} {steps : List Expr} =>
    @chain_length_limit s env (.int 1) .nowhere kinds steps Evaluator.nestingLimit henv (by decide)
  have hthree := hchain (.cons hidentity (.cons hkeep .nil)) hn
  have hfour := hchain (.cons hkeep (.cons hkeep .nil)) hn
  exact ⟨hthree.1, hfour.1, hfour.2.1⟩

end PipeLang
