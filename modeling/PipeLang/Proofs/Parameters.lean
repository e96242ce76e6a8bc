import PipeLang.Proofs.Memo
import PipeLang.Proofs.Shelter
import PipeLang.Proofs.Stages
import PipeLang.Proofs.Strategies

/-!
# Parameters of the steps of a chain

A closure that a step calls gets its arguments unevaluated.  In a chain that is evaluated step by
step they wait in the environment of the chain itself, in which the placeholder is bound anew after
each step and put back at the end.  So what a parameter stands for depends on when it is read for
the first time: until then it is the argument with the placeholder as that environment binds it at
the moment, and from then on it is the value that this reading has given, whatever the placeholder
is bound to.  A parameter that is first read after the chain does not see the value that arrived at
its step (`late_reading_misses_arrival`).

On demand, where every step has an environment of its own, it does: there the placeholder is a name
that waits for its first reading as a parameter does, and it stands for the step before.
`parameters_are_fixed_by_first_reading` has both kinds of chains.

* `ReadOnce` is what a parameter stands for in every store, and `Store.AwaitsReading` that it has
  not been read yet.
* `Store.exists_awaits_called` says which parameter of a call stands for which argument, and
  `Store.exists_awaits_addStages` what the placeholder of a stage stands for.
* `Evaluator.evalSteps_append` and `Evaluator.eval_call_closure` lead from the chain to the body of
  the closure, and `Store.advances_of_call` from there to the end of the chain.
* `Store.Placed.leaves_stage` keeps the placeholder of a stage after the chain.
-/

namespace PipeLang

variable {s t u : Store} {env : Env} {v w : Value} {n : Nat}

/-! ### The frame of a call -/

/-- The store in which the body of a closure begins that is called on expressions. -/
def Store.called (s : Store) (env : Env) (c : Closure) (args : List Expr) : Store :=
  Evaluator.deferArguments s.nextFrame env c.params args (s.addFrame [])

/-- In a frame the parameter is bound to a deferred value. -/
def Store.Defers (s : Store) (frame : FrameId) (param : String) (id : ThunkId) : Prop :=
  s.binding? frame param = some (.deferred id)

namespace Store

variable {frame : FrameId} {pairs : List (String × Expr)}

/-- Some names of a frame, each deferred to its expression. -/
def deferAll (s : Store) (frame : FrameId) (env : Env) (pairs : List (String × Expr)) : Store :=
  pairs.foldl (fun s pair => s.bindDeferred frame pair.1 pair.2 env) s

/-- What each of the writes keeps, all of them keep. -/
theorem deferAll_induction {p : Store → Prop} (hs : p s)
    (hstep : ∀ t, p t → ∀ pair ∈ pairs, p (t.bindDeferred frame pair.1 pair.2 env)) :
    p (s.deferAll frame env pairs) :=
  List.foldlRecOn pairs _ hs hstep

theorem size_frames_deferAll (s : Store) (frame : FrameId) (env : Env)
    (pairs : List (String × Expr)) : (s.deferAll frame env pairs).frames.size = s.frames.size :=
  deferAll_induction (p := fun t => t.frames.size = s.frames.size) rfl
    fun t ht pair _ => (t.size_frames_bindDeferred frame pair.1 pair.2 env).trans ht

theorem bindings_deferAll_of_ne {other : FrameId} (hne : other ≠ frame) (s : Store) (env : Env)
    (pairs : List (String × Expr)) :
    (s.deferAll frame env pairs).bindings other = s.bindings other :=
  deferAll_induction (p := fun t => t.bindings other = s.bindings other) rfl
    fun t ht pair _ => (bindings_bind_of_ne hne (t.addThunk pair.2 env) _ _).trans ht

/-- More names in the frame leave the others, and what they are deferred to, as they are. -/
theorem defers_deferAll {param : String} {id : ThunkId} {x : Thunk}
    (hbound : s.Defers frame param id) (hthunk : s.thunk? id = some x)
    (hpairs : param ∉ pairs.map Prod.fst) :
    (s.deferAll frame env pairs).Defers frame param id ∧
      (s.deferAll frame env pairs).thunk? id = some x := by
  refine deferAll_induction (p := fun t => t.Defers frame param id ∧ t.thunk? id = some x)
    ⟨hbound, hthunk⟩ fun t ⟨ht, hwaits⟩ pair hpair => ?_
  have hne : param ≠ pair.1 := fun heq => hpairs (heq ▸ List.mem_map_of_mem hpair)
  exact ⟨(binding?_bind_of_ne (.inr hne) (t.addThunk pair.2 env) _).trans ht,
    thunk?_addThunk_of_some hwaits pair.2 env⟩

theorem size_thunks_le_deferAll (s : Store) (frame : FrameId) (env : Env)
    (pairs : List (String × Expr)) : s.thunks.size ≤ (s.deferAll frame env pairs).thunks.size := by
  refine deferAll_induction (p := fun t => s.thunks.size ≤ t.thunks.size) (Nat.le_refl _)
    fun t ht pair _ => Nat.le_trans ht ?_
  show t.thunks.size ≤ (t.thunks.push _).size
  rw [Array.size_push]
  exact Nat.le_succ _

/-- A name that does not come again is bound to a new deferred value, which waits for its
expression. -/
theorem exists_deferred_of_split (hframe : frame.index < s.frames.size) {param : String}
    {arg : Expr} {first rest : List (String × Expr)}
    (hpairs : pairs = first ++ (param, arg) :: rest) (hlast : param ∉ rest.map Prod.fst) :
    ∃ id, s.thunk? id = none ∧ (s.deferAll frame env pairs).Defers frame param id ∧
      (s.deferAll frame env pairs).thunk? id = some (.pending arg env) := by
  let t : Store := s.deferAll frame env first
  let u : Store := t.bindDeferred frame param arg env
  have hsplit : s.deferAll frame env pairs = u.deferAll frame env rest := by
    rw [hpairs]
    exact List.foldl_append
  have ht : frame.index < t.frames.size := by
    rw [size_frames_deferAll]
    exact hframe
  have hbound : u.Defers frame param t.nextThunk :=
    binding?_bind_self (t.addThunk arg env) frame param _ ht
  have hwaits : u.thunk? t.nextThunk = some (.pending arg env) :=
    (thunk?_addThunk t arg env t.nextThunk).trans (if_pos rfl)
  have hnew : s.thunk? t.nextThunk = none :=
    thunk?_of_size_le (size_thunks_le_deferAll s frame env first)
  rw [hsplit]
  exact ⟨t.nextThunk, hnew, defers_deferAll hbound hwaits hlast⟩

/-- A parameter of a closure stands for the argument at its place, the last one if its name comes
more than once. -/
theorem exists_deferred_of_called {c : Closure} {args : List Expr} {param : String} {arg : Expr}
    {first rest : List (String × Expr)} (hparam : c.params.zip args = first ++ (param, arg) :: rest)
    (hlast : param ∉ rest.map Prod.fst) :
    ∃ id, s.thunk? id = none ∧ (s.called env c args).Defers s.nextFrame param id ∧
      (s.called env c args).thunk? id = some (.pending arg env) := by
  have hframe : s.nextFrame.index < (s.addFrame []).frames.size := by
    show s.frames.size < (s.frames.push []).size
    rw [Array.size_push]
    exact Nat.lt_succ_self _
  exact exists_deferred_of_split hframe hparam hlast

/-- The frames that are there before a call bind what they bound. -/
theorem bindings_called {other : FrameId} (hother : other.index < s.frames.size) (env : Env)
    (c : Closure) (args : List Expr) : (s.called env c args).bindings other = s.bindings other := by
  have hne : other ≠ s.nextFrame := ne_nextFrame_of_lt hother
  exact (bindings_deferAll_of_ne hne (s.addFrame []) env _).trans (bindings_addFrame_of_ne hne [])

/-- What is bound again, or taken out, is no deferred value that is evaluated. -/
theorem advances_rebind (s : Store) (frame : FrameId) (name : String) (saved : Option Binding) :
    s.Advances (s.rebind frame name saved) := by
  cases saved with
  | some b => exact .of_thunks_eq rfl rfl
  | none => exact .of_thunks_eq rfl rfl

end Store

/-! ### From the chain to the body -/

namespace Evaluator

/-- The steps after some that give a value. -/
theorem evalSteps_append {ev : Evaluator} {before : List Expr} (hbefore : before ≠ [])
    (hv : ev.evalSteps env before s = (.ok v, t)) (e : Expr) (after : List Expr) :
    ev.evalSteps env (before ++ e :: after) s =
      ev.evalSteps env (e :: after) (t.define env placeholder v) := by
  rw [ev.evalSteps_append_eq hbefore (List.cons_ne_nil e after), Eval.bind_of_ok hv]
  rfl

theorem checkArity_of_accepts {name : String} {expected : Arity} {got : Nat}
    (h : expected.accepts got) (s : Store) : checkArity name expected got s = (.ok (), s) := by
  rw [checkArity, if_pos h]
  rfl

/-- A closure that is called on expressions evaluates its body, in a frame in which they wait. -/
theorem applyCall_closure {ev : Evaluator} {args : List Expr} {c : Closure}
    (harity : c.params.length = args.length) (callee : Expr) :
    ev.applyCall env (.closure c) args callee s =
      ev.eval (c.env.within s.nextFrame) c.body (s.called env c args) :=
  Eval.bind_of_ok (checkArity_of_accepts (by simp [Arity.accepts, harity]) s)

/-- A call of a closure evaluates its body, in a frame in which the arguments wait. -/
theorem eval_call_closure {callee : Expr} {args : List Expr} {c : Closure}
    (hcallee : (level n).eval env callee t = (.ok (.closure c), u))
    (harity : c.params.length = args.length) (span : Span) :
    (level (n + 1)).eval env (.call callee args span) t =
      (level n).eval (c.env.within u.nextFrame) c.body (u.called env c args) := by
  show ((level n).eval env callee >>= fun f => (level n).applyCall env f args callee) t = _
  rw [Eval.bind_of_ok hcallee]
  exact applyCall_closure harity callee

end Evaluator

namespace Store

/-- The body of a called closure, and the steps after the call, end in a store that the one in which
the body begins has advanced to. -/
theorem advances_of_call {e body : Expr} {inner : Env} {s t : Store}
    (he : (Evaluator.level (n + 1)).eval env e s = (Evaluator.level n).eval inner body t)
    (after : List Expr) :
    t.Advances ((Evaluator.level (n + 1)).evalSteps env (e :: after) s).2 := by
  have hbody : t.Advances ((Evaluator.level n).eval inner body t).2 :=
    advances_run n (.eval inner body) t
  rw [← he] at hbody
  cases after with
  | nil => exact hbody
  | cons next rest =>
    rcases hrun : (Evaluator.level (n + 1)).eval env e s with ⟨r, u⟩
    rw [hrun] at hbody
    cases r with
    -- the next step is bound to the value, which touches no deferred one
    | ok v =>
      rw [Evaluator.evalSteps_of_ok hrun]
      have hdefined : u.Advances (u.define env placeholder v) := .of_thunks_eq rfl rfl
      exact (hbody.trans hdefined).trans (advances_evalSteps _ env _ _)
    | error err =>
      rw [Evaluator.evalSteps, Eval.bind_of_error hrun]
      exact hbody
    | outOfFuel =>
      rw [Evaluator.evalSteps, Eval.bind_of_outOfFuel hrun]
      exact hbody

/-! ### Reading a parameter -/

/-- To read a parameter is to demand what it is deferred to. -/
theorem Defers.eval_sym {inner : Env} {param : String} {id : ThunkId}
    (h : s.Defers inner.own param id) (hbare : unqualified? param = none) (n : Nat)
    (at_ : Span) :
    (Evaluator.level (n + 1)).eval inner (.sym param at_) s = (Evaluator.level n).force id s :=
  (Evaluator.level n).lookup_of_resolve (resolve_of_find? hbare (find?_of_own h))

end Store

/-- What a parameter stands for that is deferred to an argument, in every store.  Reading it is
evaluating it as a symbol in the environment of the call. -/
structure ReadOnce (inner : Env) (param : String) (id : ThunkId) (env : Env) (arg : Expr) :
    Prop where
  /-- Unread, it is the argument in the environment of the caller as it is at the moment. -/
  unread : ∀ {s : Store}, s.Defers inner.own param id → s.thunk? id = some (.pending arg env) →
    s.depth < depthLimit → ∀ n at_,
      ((Evaluator.level (n + 1)).eval inner (.sym param at_) s).1 =
        ((Evaluator.level n).eval env arg (s.enter id)).1
  /-- There the placeholder stands for the value that it is bound to at the moment. -/
  arrival : ∀ {s : Store} {v : Value}, s.ownBinding? env placeholder = some (.value v) →
    ∀ n dot, (Evaluator.level (n + 1)).eval env (.sym placeholder dot) (s.enter id) =
      (.ok v, s.enter id)
  /-- If it is deferred, to read it there is to demand what it is deferred to. -/
  demand : ∀ {s : Store} {prev}, s.Defers env.own placeholder prev → ∀ n dot,
    (Evaluator.level (n + 1)).eval env (.sym placeholder dot) (s.enter id) =
      (Evaluator.level n).force prev (s.enter id)
  /-- That is the value it is deferred to, if this is there. -/
  arrived : ∀ {s : Store} {prev} {v : Value}, s.Defers env.own placeholder prev →
    s.thunk? id = some (.pending arg env) → s.thunk? prev = some (.forced v) →
      ∀ n dot, (Evaluator.level (n + 1)).eval env (.sym placeholder dot) (s.enter id) =
        (.ok v, s.enter id)
  /-- A reading that gives a value fixes it. -/
  fixed : ∀ {s t : Store} {w : Value} {n at_}, s.Defers inner.own param id →
    (Evaluator.level (n + 1)).eval inner (.sym param at_) s = (.ok w, t) →
      t.thunk? id = some (.forced w)
  /-- It stays fixed whatever is done, while it is done too. -/
  kept : ∀ {s : Store} {w : Value}, s.thunk? id = some (.forced w) → ∀ n r,
    (r.run (.level n) s).2.thunk? id = some (.forced w) ∧
      EveryEntry (fun _ _ t => t.thunk? id = some (.forced w)) n r s
  /-- Every later reading gives the value, and nothing is evaluated for it. -/
  again : ∀ {s : Store} {w : Value}, s.Defers inner.own param id →
    s.thunk? id = some (.forced w) → ∀ n at_,
      (Evaluator.level (n + 1)).eval inner (.sym param at_) s = (.ok w, s)
  /-- However often it is read, the argument is evaluated with success once if the value is there in
  the end, and never otherwise. -/
  once : ∀ {s : Store}, s.thunk? id = some (.pending arg env) → ∀ n before (r : Request) note,
    let t := (r.run (.level n) (Request.runAll (.level n) before s)).2
    r.record id note n (Request.recordAll id note n before s) =
      ((r.run (.level n) (Request.runAll (.level n) before s)).1,
        t.note (t.noteOf id (note env arg)))

/-- A parameter is forced at its first reading, and read as a forced value from then on. -/
theorem readOnce {inner : Env} {param : String} (hbare : unqualified? param = none) (id : ThunkId)
    (env : Env) (arg : Expr) : ReadOnce inner param id env arg where
  unread {s} hdefers hpending hdepth n at_ := by
    rw [hdefers.eval_sym hbare, Evaluator.force_of_pending _ hpending hdepth]
    rcases (Evaluator.level n).eval env arg (s.enter id) with ⟨r, t⟩
    cases r <;> rfl
  arrival h n _ := (Evaluator.level n).lookup_of_find? rfl (Store.find?_of_own h)
  demand {s prev} h n dot := by
    have hentered : (s.enter id).Defers env.own placeholder prev := h
    exact hentered.eval_sym rfl n dot
  arrived {s prev v} h hpending hforced n dot := by
    -- the value that arrives is forced, and so it is not the parameter
    have hne : prev ≠ id := by
      rintro rfl
      simp [hpending] at hforced
    have hentered : (s.enter id).Defers env.own placeholder prev := h
    rw [hentered.eval_sym rfl]
    exact Evaluator.force_of_forced _ ((Store.thunk?_enter_of_ne hne s).trans hforced)
  fixed hdefers hread := by
    rw [hdefers.eval_sym hbare] at hread
    exact Store.thunk?_force_of_ok hread
  kept {s w} h n r :=
    ⟨(Store.advances_run n r s).forced id w h, everyEntry_forced n r h⟩
  again hdefers hforced n at_ := by
    rw [hdefers.eval_sym hbare]
    exact Evaluator.force_of_forced _ hforced
  once h n before r note := r.record_of_pending n before h note

/-- In this store a name waits for its first reading: a frame defers it to an expression, in the
environment that the expression is evaluated in when the name is read. -/
structure Store.AwaitsReading (s : Store) (inner : Env) (name : String) (id : ThunkId) (env : Env)
    (e : Expr) : Prop where
  defers : s.Defers inner.own name id
  pending : s.thunk? id = some (.pending e env)
  reads : ReadOnce inner name id env e

namespace Store

/-- When the body of a closure begins, its parameters wait. -/
theorem exists_awaits_called {c : Closure} {args : List Expr} {param : String} {arg : Expr}
    {first rest : List (String × Expr)} (hparam : c.params.zip args = first ++ (param, arg) :: rest)
    (hlast : param ∉ rest.map Prod.fst) (hbare : unqualified? param = none) (s : Store)
    (env : Env) :
    ∃ id, s.thunk? id = none ∧
      (s.called env c args).AwaitsReading (c.env.within s.nextFrame) param id env arg := by
  obtain ⟨id, hnew, hdefers, hpending⟩ := exists_deferred_of_called hparam hlast
  exact ⟨id, hnew, hdefers, hpending, readOnce hbare id env arg⟩

/-- When the last of some stages has been made, the placeholder waits in it, as the last of their
expressions in the stage before. -/
theorem exists_awaits_addStages (s : Store) (env : Env) {before : List Expr}
    (hbefore : before ≠ []) :
    ∃ prev, (s.addStages env before).2.AwaitsReading (s.addStages env before).1 placeholder prev
      (s.addStages env before.dropLast).1 (before.getLast hbefore) := by
  rw [s.addStages_eq_addStage env hbefore]
  have hdefers : ∀ (t : Store) (scope : Env) (e : Expr),
      (t.addStage scope e).2.Defers (t.addStage scope e).1.own placeholder t.nextThunk := by
    intro t scope e
    show (t.addDeferred placeholder e scope).binding? t.nextFrame placeholder = _
    rw [binding?_addDeferred, if_pos rfl, if_pos rfl]
  exact ⟨_, hdefers _ _ _, thunk?_addDeferred_self _ placeholder _ _, readOnce rfl _ _ _⟩

end Store

/-! ### The steps of a chain -/

namespace Store

/-- The value that arrives is bound in the frame of the chain for the step, and the call leaves it
to the callee whether it still is. -/
theorem ownBinding?_of_step {before args : List Expr} {callee : Expr} {c : Closure}
    (hv : (Evaluator.level (n + 1)).evalSteps env before s = (.ok v, t))
    (hcallee : (Evaluator.level n).eval env callee (t.define env placeholder v) =
      (.ok (.closure c), u)) (hown : env.own.index < s.frames.size) :
    (t.define env placeholder v).ownBinding? env placeholder = some (.value v) ∧
      (u.called env c args).ownBinding? env placeholder = u.ownBinding? env placeholder := by
  have hsteps := Evaluator.size_frames_le_evalSteps (n + 1) env before s
  rw [hv] at hsteps
  have hframe : env.own.index < t.frames.size := Nat.lt_of_lt_of_le hown hsteps
  have hdefined : env.own.index < (t.define env placeholder v).frames.size := by
    rw [define, size_frames_bind]
    exact hframe
  have hkept := Evaluator.size_frames_le_eval n env callee (t.define env placeholder v)
  rw [hcallee] at hkept
  refine ⟨binding?_bind_self t env.own placeholder _ hframe, ?_⟩
  rw [ownBinding?, binding?, bindings_called (Nat.lt_of_lt_of_le hdefined hkept)]
  rfl

/-- From the start of a chain to the call of a step. -/
theorem advances_of_step {before : List Expr} {callee : Expr} {w : Value}
    (hv : (Evaluator.level (n + 1)).evalSteps env before s = (.ok v, t))
    (hcallee : (Evaluator.level n).eval env callee (t.define env placeholder v) = (.ok w, u)) :
    s.Advances u := by
  have hsteps := advances_evalSteps (n + 1) env before s
  rw [hv] at hsteps
  have hdefined : t.Advances (t.define env placeholder v) := .of_thunks_eq rfl rfl
  have hrun : (t.define env placeholder v).Advances
      ((Evaluator.level n).eval env callee (t.define env placeholder v)).2 :=
    advances_run n (.eval env callee) _
  rw [hcallee] at hrun
  exact (hsteps.trans hdefined).trans hrun

/-- Where the rest of a chain on demand does not assign to the placeholder, the frame of a stage
binds it at the end of the chain, and later on, as it did when the stage was made. -/
theorem Placed.leaves_stage (hs : s.Placed) (henv : s.HasFrames env) {before rest : List Expr}
    (hbefore : before ≠ []) (hrest : rest ≠ [])
    (hspared : ∀ e ∈ rest, e.assigns placeholder = false) (m : Nat) :
    let frame := (s.addStages env before).1.own
    let chain := before ++ rest
    Evaluator.Throughout (Env.Leaves frame) m (fun ev => ev.evalLazy env chain) s ∧
      ∀ requests, (∀ r ∈ requests, r.Spares frame) →
        let later := Request.runAll (.level m) requests ((Evaluator.level m).evalLazy env chain s).2
        later.binding? frame placeholder =
            (s.addStages env before).2.binding? frame placeholder ∧
          ∀ r, r.Spares frame → EveryEntry (Env.Leaves frame) m r later := by
  intro frame chain
  have hchain : ∀ ev : Evaluator, ev.evalLazy env chain s =
      ev.evalLazy (s.addStages env before).1 rest (s.addStages env before).2 := fun ev =>
    evalLazy_append ev hrest before env s
  -- the rest of the chain begins in the frame of the stage
  have hspares : ∀ e ∈ rest, Env.Spares frame (s.addStages env before).1 e :=
    fun e he _ => hspared e he
  obtain ⟨hended, hthroughout⟩ := (hs.shelters_addStages henv hbefore).evalLazy hspares m
  rw [← hchain] at hended
  refine ⟨fun alarm => ?_, fun requests hrequests => ?_⟩
  · dsimp only
    rw [hchain, hchain]
    exact hthroughout alarm
  · have hlater := hended.runAll hrequests m
    exact ⟨hlater.bound _ rfl, fun r hr => (hlater.run hr m).2⟩

end Store

/-- Take a step of a chain that calls a closure.  When the body begins, each parameter waits as its
argument; a first reading evaluates the argument, and after a reading that has given a value every
other one gives the same value, whatever has been done since.

In a chain that is evaluated step by step, the argument is over the environment of the chain, where
the placeholder has been bound for the step to the value `v` that arrives, and is still so unless
the callee has bound it anew.  It is put back at the end of the chain as before the chain, when the
parameter still waits or has the value of its one reading.

On demand, the step is evaluated in a stage, at once if it is the last one and else when the next
one reads its placeholder.  The argument is over the environment of that stage, where the
placeholder waits for its first reading too, as the step before in the stage of that step.  So a
reading at any time has the placeholder stand for the value of the step before, as long as the frame
of the stage binds it so.
If neither this step nor a later one assigns to it, the frame does so at the end of the chain, and
from then on after everything that spares the frame, and no evaluation on the way leaves it bound
in another way than it has found it. -/
theorem parameters_are_fixed_by_first_reading {before args : List Expr} {callee arg : Expr}
    {c : Closure} {param : String} {first rest : List (String × Expr)} (hbefore : before ≠ [])
    (harity : c.params.length = args.length)
    (hparam : c.params.zip args = first ++ (param, arg) :: rest)
    (hlast : param ∉ rest.map Prod.fst) (hbare : unqualified? param = none) (span : Span)
    (after : List Expr) (env : Env) (s : Store) (n : Nat) :
    let call : Expr := .call callee args span
    let chain := before ++ call :: after
    -- step by step
    (∀ v t u, (Evaluator.level (n + 1)).evalSteps env before s = (.ok v, t) →
      (Evaluator.level n).eval env callee (t.define env placeholder v) = (.ok (.closure c), u) →
      let called := u.called env c args
      let inner := c.env.within u.nextFrame
      let ended := ((Evaluator.level (n + 1)).evalEager env chain s).2
      (Evaluator.level (n + 1)).eval env call (t.define env placeholder v) =
        (Evaluator.level n).eval inner c.body called ∧
      (env.own.index < s.frames.size →
        (t.define env placeholder v).ownBinding? env placeholder = some (.value v) ∧
          called.ownBinding? env placeholder = u.ownBinding? env placeholder) ∧
      ∃ id, called.AwaitsReading inner param id env arg ∧
        ended.ownBinding? env placeholder = s.ownBinding? env placeholder ∧
        (ended.thunk? id = some (.pending arg env) ∨ ∃ w, ended.thunk? id = some (.forced w)) ∧
        ∀ label, (Evaluator.recorded id (fun _ _ => label) (n + 1)).evalEager env chain s =
          (((Evaluator.level (n + 1)).evalEager env chain s).1,
            ended.note (ended.noteOf id label))) ∧
    -- on demand
    let stage := s.addStages env before
    ∃ prev, stage.2.AwaitsReading stage.1 placeholder prev (s.addStages env before.dropLast).1
        (before.getLast hbefore) ∧
      (∀ ev : Evaluator, ev.evalLazy env chain s = ev.evalLazy stage.1 (call :: after) stage.2) ∧
      (∀ t u, (Evaluator.level n).eval stage.1 callee t = (.ok (.closure c), u) →
        let called := u.called stage.1 c args
        let inner := c.env.within u.nextFrame
        (Evaluator.level (n + 1)).eval stage.1 call t =
            (Evaluator.level n).eval inner c.body called ∧
        ∃ id, called.AwaitsReading inner param id stage.1 arg) ∧
      (s.Placed → s.HasFrames env → (∀ e ∈ call :: after, e.assigns placeholder = false) → ∀ m,
        let frame := stage.1.own
        let ended := ((Evaluator.level m).evalLazy env chain s).2
        Evaluator.Throughout (Env.Leaves frame) m (fun ev => ev.evalLazy env chain) s ∧
        ∀ requests, (∀ r ∈ requests, r.Spares frame) →
          let later := Request.runAll (.level m) requests ended
          later.Defers frame placeholder prev ∧
            ∀ r, r.Spares frame → EveryEntry (Env.Leaves frame) m r later) := by
  intro call chain
  constructor
  · intro v t u hv hcallee called inner ended
    have hcall := Evaluator.eval_call_closure hcallee harity span
    obtain ⟨id, hnew, hawaits⟩ := u.exists_awaits_called hparam hlast hbare env
    have hended : called.Advances ended := by
      have hsteps := Store.advances_of_call hcall after
      rw [← Evaluator.evalSteps_append hbefore hv] at hsteps
      exact hsteps.trans (Store.advances_rebind _ _ _ _)
    refine ⟨hcall, Store.ownBinding?_of_step hv hcallee, id, hawaits,
      Evaluator.ownBinding?_evalEager _ _ _ _, hended.pending hawaits.pending, fun label => ?_⟩
    -- the deferred value is made by the call, so it is not there when the chain begins
    have hnone := (Store.advances_of_step hv hcallee).thunk?_eq_none hnew
    exact Evaluator.evalEager_recorded hnone (n + 1) env chain label
  · intro stage
    obtain ⟨prev, hawaits⟩ := s.exists_awaits_addStages env hbefore
    refine ⟨prev, hawaits, ?_, fun t u hcallee => ?_, fun hs henv hspared m => ?_⟩
    · exact fun ev => Store.evalLazy_append ev (List.cons_ne_nil call after) before env s
    · obtain ⟨id, -, hwaits⟩ := u.exists_awaits_called hparam hlast hbare stage.1
      exact ⟨Evaluator.eval_call_closure hcallee harity span, id, hwaits⟩
    · obtain ⟨hthroughout, hlater⟩ :=
        hs.leaves_stage henv hbefore (List.cons_ne_nil call after) hspared m
      refine ⟨hthroughout, fun requests hrequests => ?_⟩
      obtain ⟨hbound, hentries⟩ := hlater requests hrequests
      exact ⟨hbound.trans hawaits.defers, hentries⟩

/-- Two closures that answer with a function of their parameter, one of which reads it before.  Step
by step the first one keeps the value that has arrived, and the second one misses it; on demand the
second one finds it, even if the placeholder has been assigned to where the chain was. -/
theorem fixed_by_one_of_two_closures :
    let env : Env := ⟨⟨1⟩, [⟨0⟩], .eager⟩
    let x : Expr := .sym "x" .nowhere
    let later : Expr := .lambda [] x .nowhere
    let reads : Closure := ⟨⟨0⟩, ["x"], .block [x, later] .nowhere, env⟩
    let keeps : Closure := ⟨⟨1⟩, ["x"], later, env⟩
    let s : Store := { Store.empty with
      frames := #[[], [("keeps", .value (.closure keeps)), ("reads", .value (.closure reads))]]
      functions := 2 }
    let chain (name : String) : List Expr :=
      [.lit (.int 1) .nowhere, .call (.sym name .nowhere) [.sym placeholder .nowhere] .nowhere]
    let ended (name : String) : Store := ((Evaluator.level 6).evalEager env (chain name) s).2
    let five : Request := .eval env
      (.assign (.sym placeholder .nowhere) (.lit (.int 5) .nowhere) .inner .nowhere)
    let rebound := (five.run (.level 6) ((Evaluator.level 6).evalLazy env (chain "keeps") s).2).2
    (ended "reads").ownBinding? env placeholder = none ∧
    (ended "keeps").ownBinding? env placeholder = none ∧
    (Evaluator.level 3).eval (env.within ⟨2⟩) x (ended "reads") = (.ok (.int 1), ended "reads") ∧
    ((Evaluator.level 3).eval (env.within ⟨2⟩) x (ended "keeps")).1 = .error (.unbound ".") ∧
    rebound.ownBinding? env placeholder = some (.value (.int 5)) ∧
    rebound.Defers ⟨2⟩ placeholder ⟨0⟩ ∧
    ((Evaluator.level 3).eval (env.within ⟨3⟩) x rebound).1 = .ok (.int 1) := by
  intro env x later reads keeps s chain ended five rebound
  have hplaced : s.Placed := by
    have hroot : (Store.empty.addFrame []).Placed := Store.Placed.empty.addFrame (by rintro _ _ ⟨⟩)
    refine Store.Placed.of_eq (hroot.addFrame fun name b hb => ?_) rfl rfl rfl
    rcases List.mem_cons.1 (Fields.mem_of_get? hb) with heq | hmem
    · cases heq
      exact ⟨_, rfl, Value.runs_closure.2 (by decide)⟩
    · cases List.mem_singleton.1 hmem
      exact ⟨_, rfl, Value.runs_closure.2 (by decide)⟩
  have hv : (Evaluator.level 6).evalSteps env [.lit (.int 1) .nowhere] s = (.ok (.int 1), s) := rfl
  have hparam : ["x"].zip [Expr.sym placeholder .nowhere] =
      [] ++ ("x", .sym placeholder .nowhere) :: [] := rfl
  have hchain := fun (callee : Expr) (c : Closure) (hparams : c.params = ["x"]) =>
    @parameters_are_fixed_by_first_reading [.lit (.int 1) .nowhere] _ callee _ c _ _ _
      (List.cons_ne_nil _ _) (congrArg List.length hparams) (hparams ▸ hparam) List.not_mem_nil rfl
      .nowhere [] env s 5
  obtain ⟨-, -, id, hreads, hput, -⟩ := (hchain (.sym "reads" .nowhere) reads rfl).1 _ _ _ hv rfl
  obtain ⟨-, -, other, hkeeps, hback, -⟩ :=
    (hchain (.sym "keeps" .nowhere) keeps rfl).1 _ _ _ hv rfl
  -- the one deferred value of each chain
  obtain rfl : (⟨0⟩ : ThunkId) = id := Binding.deferred.inj (Option.some.inj hreads.defers)
  obtain rfl : (⟨0⟩ : ThunkId) = other := Binding.deferred.inj (Option.some.inj hkeeps.defers)
  have hread := hreads.reads.again (s := ended "reads") rfl rfl 2 .nowhere
  have hunread := hkeeps.reads.unread (s := ended "keeps") rfl rfl (by decide) 2 .nowhere
  -- on demand there is one for the placeholder and one for the parameter
  obtain ⟨prev, hstage, -, hcall, hafter⟩ := (hchain (.sym "keeps" .nowhere) keeps rfl).2
  obtain rfl : (⟨0⟩ : ThunkId) = prev := Binding.deferred.inj (Option.some.inj hstage.defers)
  obtain ⟨-, param, hlate⟩ := hcall (s.addStages env [.lit (.int 1) .nowhere]).2 _ rfl
  obtain rfl : (⟨1⟩ : ThunkId) = param := Binding.deferred.inj (Option.some.inj hlate.defers)
  have hafter := (hafter hplaced (by decide) (by decide) 6).2 [five] (by
    simpa using Request.spares_eval (by decide) _)
  have hlateRead := hlate.reads.unread (s := rebound) rfl rfl (by decide) 2 .nowhere
  have harrival := hlate.reads.demand (s := rebound) hafter.1 1 .nowhere
  exact ⟨hput.trans rfl, hback.trans rfl, hread, hunread.trans rfl, rfl, hafter.1,
    hlateRead.trans (congrArg Prod.fst harrival)⟩

/-- The same with programs.  A function that an eager chain has made reads its parameter after the
chain, and finds the placeholder unbound; of the chain on demand it gets the value.  And a parameter
that is read after another argument of its own call has assigned to the placeholder stands for what
has been assigned, in both kinds of chains. -/
theorem late_reading_misses_arrival :
    let keeps : Expr := .lambda ["x"] (.lambda [] (.sym "x" .nowhere) .nowhere) .nowhere
    let second : Expr :=
      .lambda ["x", "y"] (.block [.sym "y" .nowhere, .sym "x" .nowhere] .nowhere) .nowhere
    let assign (name : String) (value : Expr) : Expr :=
      .assign (.sym name .nowhere) value .inner .nowhere
    let call (name : String) (args : List Expr) : Expr := .call (.sym name .nowhere) args .nowhere
    let chain (op : String) : Expr := call op [.lit (.int 1) .nowhere, call "mk" []]
    let assigning (op : String) : Expr := call op [.lit (.int 1) .nowhere,
      call "snd" [.sym placeholder .nowhere, .block [assign placeholder (.lit (.int 5) .nowhere)]
        .nowhere]]
    let run (stmts : List Expr) : Outcome EvalError Value :=
      ((Evaluator.level 12).evalStatements (globalEnv .auto).1 stmts (globalEnv .auto).2).1
    run [assign "mk" keeps, assign "g" (chain "%>%"), call "g" []] = .ok (.int 1) ∧
    run [assign "mk" keeps, assign "g" (chain "%!>%"), call "g" []] = .error (.unbound ".") ∧
    run [assign "snd" second, assigning "%>%"] = .ok (.int 5) ∧
    run [assign "snd" second, assigning "%!>%"] = .ok (.int 5) := ⟨rfl, rfl, rfl, rfl⟩

end PipeLang
