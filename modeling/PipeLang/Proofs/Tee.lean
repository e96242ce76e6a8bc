import PipeLang.Proofs.Shelter
import PipeLang.Proofs.Strategies

/-!
# What a tee passes on

A tee evaluates its right side and then the placeholder, both in the scope of its step.  So what it
passes on is what the placeholder stands for there by then (`Evaluator.exists_of_eval_asTeeCall`).
That is the value that has arrived, unless the binding of the placeholder in the own frame of the
scope is another one than before (`tee_passes_on`): step by step it is the value itself, and on
demand it is deferred to the node that holds the value, whose own value is never another one
(`Store.Carries`).

What can rebind the placeholder in a frame is an assignment, in code that sees the frame.  So the
value is passed on wherever there is no such code (`Store.Shelters`).  On demand the frame is a new
one, and only the right side of the tee itself can see it.
-/

namespace PipeLang

/-! ### A value on its way -/

/-- The deferred value is deferred to the node that holds this value, and has no other value. -/
structure Store.Carries (id : ThunkId) (node : Expr) (env : Env) (v : Value) (s : Store) :
    Prop where
  held : ∃ label ref span, node = .inline label ref span ∧ s.inline? ref = some v
  state : s.thunk? id = some (.pending node env) ∨ s.thunk? id = some .evaluating ∨
    s.thunk? id = some (.forced v)

namespace Store.Carries

variable {id other : ThunkId} {node : Expr} {env : Env} {v : Value} {s t : Store} {x : Thunk}

/-- The node of a value is evaluated to it. -/
theorem eval_node (hs : s.Carries id node env v) {n : Nat} {scope : Env} {w : Value}
    (h : (Evaluator.level n).eval scope node s = (.ok w, t)) : w = v := by
  obtain ⟨label, ref, span, rfl, href⟩ := hs.held
  cases n with
  | zero => cases h
  | succ n =>
    rw [Evaluator.eval_inline n href] at h
    cases h
    rfl

theorem of_eq (hs : s.Carries id node env v) (hthunks : t.thunks = s.thunks)
    (hinlines : t.inlines = s.inlines) : t.Carries id node env v where
  held := by
    obtain ⟨label, ref, span, hnode, href⟩ := hs.held
    exact ⟨label, ref, span, hnode, by rw [inline?, hinlines]; exact href⟩
  state := by
    rw [thunk?, hthunks]
    exact hs.state

theorem addThunk (hs : s.Carries id node env v) (e : Expr) (scope : Env) :
    (s.addThunk e scope).Carries id node env v where
  held := hs.held
  state := hs.state.imp (thunk?_addThunk_of_some · e scope)
    (Or.imp (thunk?_addThunk_of_some · e scope) (thunk?_addThunk_of_some · e scope))

theorem addInline (hs : s.Carries id node env v) (w : Value) :
    (s.addInline w).Carries id node env v where
  held := by
    obtain ⟨label, ref, span, hnode, href⟩ := hs.held
    have hold : ref.index < s.inlines.size := (Array.getElem?_eq_some_iff.1 href).1
    have hne : ref ≠ s.nextInline := by
      rintro rfl
      exact Nat.lt_irrefl _ hold
    exact ⟨label, ref, span, hnode, by rw [inline?_addInline, if_neg hne]; exact href⟩
  state := hs.state

theorem setThunk (hs : s.Carries id node env v)
    (hx : other = id → x = .pending node env ∨ x = .evaluating ∨ x = .forced v) :
    (s.setThunk other x).Carries id node env v where
  held := hs.held
  state := by
    by_cases hother : id = other
    · subst hother
      have hlt : id.index < s.thunks.size := by
        rcases hs.state with h | h | h <;> exact lt_size_of_thunk? h
      rw [thunk?_setThunk_self hlt]
      exact (hx rfl).imp (congrArg some) (Or.imp (congrArg some) (congrArg some))
    · rw [thunk?_setThunk_of_ne hother]
      exact hs.state

theorem enter (hs : s.Carries id node env v) (other : ThunkId) :
    (s.enter other).Carries id node env v := by
  have hdeeper : ({ s with depth := s.depth + 1 } : Store).Carries id node env v := hs.of_eq rfl rfl
  exact hdeeper.setThunk fun _ => .inr (.inl rfl)

theorem leave (hs : s.Carries id node env v)
    (hx : other = id → x = .pending node env ∨ x = .evaluating ∨ x = .forced v) :
    (s.leave other x).Carries id node env v := by
  have hback : ({ s with depth := s.depth - 1 } : Store).Carries id node env v := hs.of_eq rfl rfl
  exact hback.setThunk hx

/-- What is pending under its number is the node. -/
theorem eq_of_pending (hs : s.Carries id node env v) {e : Expr} {scope : Env}
    (h : s.thunk? id = some (.pending e scope)) : e = node ∧ scope = env := by
  rcases hs.state with hstate | hstate | hstate <;> rw [hstate] at h <;> cases h
  exact ⟨rfl, rfl⟩

/-- A demand that has a result has this one. -/
theorem eq_of_force (hs : s.Carries id node env v) {n : Nat} {w : Value}
    (h : (Evaluator.level n).force id s = (.ok w, t)) : w = v := by
  rcases hs.state with hstate | hstate | hstate
  · rcases Nat.lt_or_ge s.depth depthLimit with hdepth | hdepth
    · rw [Evaluator.force_of_pending _ hstate hdepth] at h
      rcases hrun : (Evaluator.level n).eval env node (s.enter id) with ⟨r, u⟩
      rw [hrun] at h
      cases r with
      | ok x =>
        cases h
        exact (hs.enter id).eval_node hrun
      | error | outOfFuel => cases h
    · rw [Evaluator.force_of_tooDeep _ hstate hdepth] at h
      cases h
  · rw [Evaluator.force_of_evaluating _ hstate] at h
    cases h
  · rw [Evaluator.force_of_forced _ hstate] at h
    cases h
    rfl

end Store.Carries

/-- Evaluations while a value is on its way. -/
def Invariant.carrying (id : ThunkId) (node : Expr) (env : Env) (v : Value) : Invariant where
  env _ := True
  store := Store.Carries id node env v
  mayGiveUp := False

namespace Invariant

variable {id : ThunkId} {node : Expr} {env : Env} {v : Value}

theorem value_carrying (w : Value) : (carrying id node env v).value w :=
  value_of_forall (fun _ => trivial) w

/-- What is carried is a deferred value and a spliced one, which no other write touches. -/
theorem lawful_carrying (id : ThunkId) (node : Expr) (env : Env) (v : Value) :
    (carrying id node env v).Lawful where
  unnoticed := .id
  within _ _ := trivial
  ofBinding _ _ := value_carrying _
  ofInline _ _ := value_carrying _
  bind hs _ _ := hs.of_eq rfl rfl
  unbind hs _ := hs.of_eq rfl rfl
  assignOuter hs _ _ := hs.of_eq rfl rfl
  addFrame hs _ := hs.of_eq rfl rfl
  addThunk hs _ := hs.addThunk _ _
  addInline hs _ := hs.addInline _
  addFunction hs := hs.of_eq rfl rfl
  print hs := hs.of_eq rfl rfl

theorem forces_carrying {n : Nat} {other : Evaluator}
    (hev : (carrying id node env v).Agree (.level n) other) :
    (carrying id node env v).Forces (.level n) other := by
  refine forces_of_inner rfl (fun _ _ _ _ _ => value_carrying _) ?_
  intro s key e scope hs hpending _
  refine ⟨carrying id node env v, rfl, fun h => h, hev.eval scope trivial e trivial, hs.enter key,
    fun r t hrun ht => ⟨ht.leave ?_, fun w hw _ => ⟨value_carrying w, ht.leave ?_⟩⟩⟩
  -- under the number of the node it is the node that was evaluated
  · rintro rfl
    obtain ⟨rfl, rfl⟩ := hs.eq_of_pending hpending
    exact .inl rfl
  · rintro rfl
    obtain ⟨rfl, rfl⟩ := hs.eq_of_pending hpending
    subst hw
    rw [(hs.enter key).eval_node hrun]
    exact .inr (.inr rfl)

theorem kept_carrying (id : ThunkId) (node : Expr) (env : Env) (v : Value) :
    Kept fun _ : Unit => carrying id node env v :=
  .of_lawful (fun _ => rfl) (fun _ => lawful_carrying id node env v)
    fun _ _ hev _ => forces_carrying (hev ())

end Invariant

theorem Store.Carries.eval {id : ThunkId} {node : Expr} {env : Env} {v : Value} {s : Store}
    (hs : s.Carries id node env v) (n : Nat) (scope : Env) (e : Expr) :
    ((Evaluator.level n).eval scope e s).2.Carries id node env v :=
  ((Invariant.kept_carrying id node env v).store_of_run () (fun h => h) (n := n)
    (r := .eval scope e) trivial trivial hs).1

/-! ### Tees -/

namespace Evaluator

variable {n : Nat} {scope : Env} {rhs : Expr} {s t u : Store} {v w : Value}

/-- A tee evaluates its right side and then the placeholder. -/
theorem exists_of_eval_asTeeCall (h : (level n).eval scope rhs.asTeeCall s = (.ok w, t)) :
    ∃ m x u, n = m + 1 ∧ (level m).eval scope rhs.asPipeCall s = (.ok x, u) ∧
      (level m).eval scope (.sym placeholder rhs.span) u = (.ok w, t) := by
  cases n with
  | zero => cases h
  | succ m =>
    obtain ⟨x, u, hright, h⟩ := Eval.bind_eq_ok_iff.1 h
    obtain ⟨y, t', hread, h⟩ := Eval.bind_eq_ok_iff.1 h
    cases h
    exact ⟨m, x, u, rfl, hright, hread⟩

/-- The placeholder is what the own frame binds it to. -/
theorem forceBinding_of_eval_placeholder {b : Binding} {span : Span}
    (hbound : u.ownBinding? scope placeholder = some b)
    (h : (level n).eval scope (.sym placeholder span) u = (.ok w, t)) :
    ∃ m, (level m).forceBinding b u = (.ok w, t) := by
  cases n with
  | zero => cases h
  | succ m =>
    have hresolve : u.resolve scope placeholder = .ok b :=
      Store.resolve_of_find? rfl (Store.find?_of_own hbound)
    exact ⟨m, ((level m).lookup_of_resolve hresolve).symm.trans h⟩

end Evaluator

/-- How a tee whose right side begins in some store comes to a result: the right side ends in
another store, and there the placeholder is read.  The result is the value that has arrived if the
own frame of the scope binds the placeholder as it did at the beginning. -/
structure PassesOn (m : Nat) (scope : Env) (rhs : Expr) (begun ended : Store) (v w : Value) :
    Prop where
  right : ∃ x, (Evaluator.level m).eval scope rhs.asPipeCall begun = (.ok x, ended)
  read : ((Evaluator.level m).eval scope (.sym placeholder rhs.span) ended).1 = .ok w
  value : ended.ownBinding? scope placeholder = begun.ownBinding? scope placeholder → w = v

variable {s : Store} {env : Env} {n m : Nat} {label : String} {ref : InlineRef} {at_ : Span}
  {v w : Value} {rhs : Expr}

/-- Step by step. -/
theorem exists_passesOn_of_evalEager (hv : s.inline? ref = some v)
    (hown : env.own.index < s.frames.size)
    (h : ((Evaluator.level n).evalEager env [.inline label ref at_, rhs.asTeeCall] s).1 = .ok w) :
    ∃ m u, n = m + 1 ∧ PassesOn m env rhs (s.define env placeholder v) u v w := by
  cases n with
  | zero => cases h
  | succ m =>
    have hhead := Evaluator.eval_inline m hv env label at_
    rw [Evaluator.evalEager_fst, Evaluator.evalSteps_of_ok hhead] at h
    obtain ⟨_, x, u, hm, hright, hread⟩ := Evaluator.exists_of_eval_asTeeCall (Prod.ext h rfl)
    cases hm
    refine ⟨m, u, rfl, ⟨x, hright⟩, congrArg Prod.fst hread, fun hbound => ?_⟩
    have hvalue : u.ownBinding? env placeholder = some (.value v) :=
      hbound.trans (Store.binding?_bind_self s env.own placeholder _ hown)
    obtain ⟨_, hforce⟩ := Evaluator.forceBinding_of_eval_placeholder hvalue hread
    cases hforce
    rfl

/-- On demand. -/
theorem exists_passesOn_of_evalLazy (hv : s.inline? ref = some v)
    (h : ((Evaluator.level n).evalLazy env [.inline label ref at_, rhs.asTeeCall] s).1 = .ok w) :
    ∃ m u, n = m + 1 ∧ PassesOn m (env.within s.nextFrame) rhs
      (s.addDeferred placeholder (.inline label ref at_) env) u v w := by
  have hlast : ((Evaluator.level n).eval (env.within s.nextFrame) rhs.asTeeCall
      (s.addDeferred placeholder (.inline label ref at_) env)).1 = .ok w := h
  obtain ⟨m, x, u, hm, hright, hread⟩ := Evaluator.exists_of_eval_asTeeCall (Prod.ext hlast rfl)
  refine ⟨m, u, hm, ⟨x, hright⟩, congrArg Prod.fst hread, fun hbound => ?_⟩
  have hbegun : (s.addDeferred placeholder (.inline label ref at_) env).Carries s.nextThunk
      (.inline label ref at_) env v :=
    ⟨⟨label, ref, at_, rfl, hv⟩, .inl (s.thunk?_addDeferred_self placeholder _ env)⟩
  have hended : u.Carries s.nextThunk (.inline label ref at_) env v := by
    have hrun := hbegun.eval m (env.within s.nextFrame) rhs.asPipeCall
    rw [hright] at hrun
    exact hrun
  -- if the frame still binds the placeholder as it did, that is to the value that is carried
  have hdeferred : u.ownBinding? (env.within s.nextFrame) placeholder =
      some (.deferred s.nextThunk) := by
    rw [hbound]
    show ((s.addDeferred placeholder _ env).bindings s.nextFrame).get? placeholder = _
    rw [s.bindings_addDeferred]
    rfl
  obtain ⟨_, hforce⟩ := Evaluator.forceBinding_of_eval_placeholder hdeferred hread
  exact hended.eq_of_force hforce

/-- Code that leaves the placeholder alone wherever it sees the frame leaves it bound there. -/
theorem PassesOn.eq_of_spares {scope : Env} {begun ended : Store}
    (h : PassesOn m scope rhs begun ended v w) (hown : scope.own.index < begun.frames.size)
    (hrhs : rhs.assigns placeholder = false)
    (hcode : begun.Runs (Env.Spares scope.own) fun c => Env.Spares scope.own c.env c.body) :
    w = v := by
  obtain ⟨x, hright⟩ := h.right
  have hspared : Env.Spares scope.own scope rhs.asPipeCall := fun _ =>
    (Expr.assigns_asPipeCall rhs).trans hrhs
  have hbound := Store.Shelters.binding?_eval hown hcode hspared m
  rw [hright] at hbound
  exact h.value hbound

/-- A tee passes on what the placeholder stands for after its right side.  That is the value that
has arrived, whatever the right side evaluates, prints, defines or assigns, if the own frame of the
scope then binds the placeholder as before: step by step if no code that sees the frame assigns to
it, and on demand if the right side does not. -/
theorem tee_passes_on (hv : s.inline? ref = some v) (henv : s.HasFrames env) :
    (∀ w, ((Evaluator.level n).evalEager env [.inline label ref at_, rhs.asTeeCall] s).1 = .ok w →
      (∃ m u, n = m + 1 ∧ PassesOn m env rhs (s.define env placeholder v) u v w) ∧
      (rhs.assigns placeholder = false →
        (s.Runs (Env.Spares env.own) fun c => Env.Spares env.own c.env c.body) → w = v)) ∧
    ∀ w, ((Evaluator.level n).evalLazy env [.inline label ref at_, rhs.asTeeCall] s).1 = .ok w →
      (∃ m u, n = m + 1 ∧ PassesOn m (env.within s.nextFrame) rhs
        (s.addDeferred placeholder (.inline label ref at_) env) u v w) ∧
      (rhs.assigns placeholder = false → s.Placed → w = v) := by
  constructor
  · intro w h
    -- step by step the placeholder is bound in the chain's own frame
    have hown : env.own.index < s.frames.size := henv _ List.mem_cons_self
    obtain ⟨m, u, hm, hpasses⟩ := exists_passesOn_of_evalEager hv hown h
    refine ⟨⟨m, u, hm, hpasses⟩, fun hrhs hcode => hpasses.eq_of_spares ?_ hrhs ?_⟩
    · rw [Store.define, Store.size_frames_bind]
      exact hown
    · exact hcode.bind _ _ (by rintro w ⟨⟩; exact hcode.spliced hv)
  · intro w h
    obtain ⟨m, u, hm, hpasses⟩ := exists_passesOn_of_evalLazy hv h
    refine ⟨⟨m, u, hm, hpasses⟩, fun hrhs hs => hpasses.eq_of_spares ?_ hrhs ?_⟩
    · exact s.lt_size_addDeferred placeholder _ env
    · exact hs.shelters_addDeferred henv _

/-- A right side that assigns to another name. -/
theorem tee_passes_one_on :
    let env := (globalEnv .auto).1
    let s := (globalEnv .auto).2.addInline (.int 1)
    let one : Expr := .inline "1" (globalEnv .auto).2.nextInline .nowhere
    let seven : Expr := .assign (.sym "x" .nowhere) (.lit (.int 7) .nowhere) .inner .nowhere
    let chain := [one, (Expr.block [seven] .nowhere).asTeeCall]
    ((Evaluator.level 5).evalEager env chain s).1 = .ok (.int 1) ∧
    ((Evaluator.level 5).evalEager env chain s).2.ownBinding? env "x" = some (.value (.int 7)) ∧
    ((Evaluator.level 5).evalLazy env chain s).1 = .ok (.int 1) := by
  intro env s one seven chain
  have hv : s.inline? (globalEnv .auto).2.nextInline = some (.int 1) := rfl
  have henv : s.HasFrames env := by decide
  have hrhs : (Expr.block [seven] .nowhere).assigns placeholder = false := by decide
  -- no function has been made yet, and so no code that could assign
  have hcode : s.Runs (Env.Spares env.own) fun c => Env.Spares env.own c.env c.body :=
    (runs_globalEnv .auto _ _).addInline (Value.runs_int 1)
  have hs : s.Placed :=
    ⟨(placed_globalEnv .auto).deferred, (placed_globalEnv .auto).code.addInline (Value.runs_int 1)⟩
  have heager : ∀ w, ((Evaluator.level 5).evalEager env chain s).1 = .ok w → w = .int 1 :=
    fun w hw => ((tee_passes_on hv henv).1 w hw).2 hrhs hcode
  have hlazy : ∀ w, ((Evaluator.level 5).evalLazy env chain s).1 = .ok w → w = .int 1 :=
    fun w hw => ((tee_passes_on hv henv).2 w hw).2 hrhs hs
  obtain ⟨w, hw⟩ : ∃ w, ((Evaluator.level 5).evalEager env chain s).1 = .ok w := ⟨_, rfl⟩
  obtain ⟨w', hw'⟩ : ∃ w, ((Evaluator.level 5).evalLazy env chain s).1 = .ok w := ⟨_, rfl⟩
  refine ⟨?_, rfl, ?_⟩
  · rw [hw, heager w hw]
  · rw [hw', hlazy w' hw']

/-- A right side that assigns to the placeholder. -/
theorem tee_passes_assigned_placeholder_on :
    let env := (globalEnv .auto).1
    let s := (globalEnv .auto).2.addInline (.int 1)
    let one : Expr := .inline "1" (globalEnv .auto).2.nextInline .nowhere
    let five : Expr := .assign (.sym placeholder .nowhere) (.lit (.int 5) .nowhere) .inner .nowhere
    let chain := [one, (Expr.block [five] .nowhere).asTeeCall]
    ((Evaluator.level 5).evalEager env chain s).1 = .ok (.int 5) ∧
    ((Evaluator.level 5).evalLazy env chain s).1 = .ok (.int 5) :=
  ⟨rfl, rfl⟩

end PipeLang
