import PipeLang.Eval.Force
import PipeLang.Proofs.Captured

/-!
# Code kept in a store

A store keeps code for later: the bodies of closures, in bound, finished and spliced values, and
the expressions of pending values.  `Store.Runs` says that all of it has some property, and each way
of writing to a store keeps that as long as what is written has the property.
-/

namespace PipeLang

/-- The closures in the store and the expressions that wait in it have some properties. -/
structure Store.Runs (code : Env → Expr → Prop) (closure : Closure → Prop) (s : Store) : Prop where
  bound : ∀ {frame name v}, s.binding? frame name = some (.value v) → v.Runs closure
  pending : ∀ {id e env}, s.thunk? id = some (.pending e env) → code env e
  forced : ∀ {id v}, s.thunk? id = some (.forced v) → v.Runs closure
  spliced : ∀ {ref v}, s.inline? ref = some v → v.Runs closure

namespace Store.Runs

variable {code : Env → Expr → Prop} {closure : Closure → Prop} {s t : Store}

theorem empty : Store.empty.Runs code closure where
  bound h := by simp [binding?, bindings, Store.empty, Fields.get?] at h
  pending h := by simp [thunk?, Store.empty] at h
  forced h := by simp [thunk?, Store.empty] at h
  spliced h := by simp [inline?, Store.empty] at h

theorem mono (h : s.Runs code closure) {code' : Env → Expr → Prop} {closure' : Closure → Prop}
    (hcode : ∀ env e, code env e → code' env e) (hclosure : ∀ c, closure c → closure' c) :
    s.Runs code' closure' where
  bound hbinding c hc := hclosure c (h.bound hbinding c hc)
  pending hthunk := hcode _ _ (h.pending hthunk)
  forced hthunk c hc := hclosure c (h.forced hthunk c hc)
  spliced hinline c hc := hclosure c (h.spliced hinline c hc)

/-! ### Frames -/

/-- What is written to a frame must be good. -/
theorem bind (h : s.Runs code closure) (frame : FrameId) (name : String) {b : Binding}
    (hb : ∀ v, b = .value v → v.Runs closure) : (s.bind frame name b).Runs code closure where
  bound {other key v} hbinding := by
    rcases eq_or_binding?_of_bind hbinding with heq | hold
    · exact hb v heq.symm
    · exact h.bound hold
  pending hthunk := h.pending hthunk
  forced hthunk := h.forced hthunk
  spliced hinline := h.spliced hinline

theorem unbind (h : s.Runs code closure) (frame : FrameId) (name : String) :
    (s.unbind frame name).Runs code closure where
  bound hbinding := h.bound (binding?_of_unbind hbinding)
  pending hthunk := h.pending hthunk
  forced hthunk := h.forced hthunk
  spliced hinline := h.spliced hinline

theorem rebind (h : s.Runs code closure) (frame : FrameId) (name : String)
    {saved : Option Binding} (hsaved : ∀ v, saved = some (.value v) → v.Runs closure) :
    (s.rebind frame name saved).Runs code closure := by
  cases saved with
  | none => exact h.unbind frame name
  | some b => exact h.bind frame name fun v hv => hsaved v (congrArg some hv)

/-- What a new frame binds must be good. -/
theorem addFrame (h : s.Runs code closure) {fields : Fields Binding}
    (hfields : ∀ name v, fields.get? name = some (.value v) → v.Runs closure) :
    (s.addFrame fields).Runs code closure where
  bound hbinding := by
    rcases binding?_of_addFrame hbinding with hnew | hold
    · exact hfields _ _ hnew
    · exact h.bound hold
  pending hthunk := h.pending hthunk
  forced hthunk := h.forced hthunk
  spliced hinline := h.spliced hinline

/-! ### Deferred values -/

/-- An expression that is deferred must be good in its environment. -/
theorem addThunk (h : s.Runs code closure) {e : Expr} {env : Env} (he : code env e) :
    (s.addThunk e env).Runs code closure where
  bound hbinding := h.bound hbinding
  pending hthunk := by
    rw [thunk?_addThunk] at hthunk
    split at hthunk
    · cases hthunk
      exact he
    · exact h.pending hthunk
  forced hthunk := by
    rw [thunk?_addThunk] at hthunk
    split at hthunk
    · cases hthunk
    · exact h.forced hthunk
  spliced hinline := h.spliced hinline

/-- A deferred value may be given back its expression, or a good value. -/
theorem setThunk (h : s.Runs code closure) (id : ThunkId) {x : Thunk}
    (hpending : ∀ e env, x = .pending e env → code env e)
    (hforced : ∀ v, x = .forced v → v.Runs closure) : (s.setThunk id x).Runs code closure where
  bound hbinding := h.bound hbinding
  pending hthunk := by
    rcases eq_or_thunk?_of_setThunk hthunk with heq | hold
    · exact hpending _ _ heq.symm
    · exact h.pending hold
  forced hthunk := by
    rcases eq_or_thunk?_of_setThunk hthunk with heq | hold
    · exact hforced _ heq.symm
    · exact h.forced hold
  spliced hinline := h.spliced hinline

/-- A name of a frame is deferred to an expression. -/
theorem bindDeferred (h : s.Runs code closure) (frame : FrameId) (name : String) {e : Expr}
    {env : Env} (he : code env e) : (s.bindDeferred frame name e env).Runs code closure :=
  (h.addThunk he).bind frame name (by rintro v ⟨⟩)

/-! ### Spliced values and the rest -/

/-- A value that is spliced in must be good. -/
theorem addInline (h : s.Runs code closure) {v : Value} (hv : v.Runs closure) :
    (s.addInline v).Runs code closure where
  bound hbinding := h.bound hbinding
  pending hthunk := h.pending hthunk
  forced hthunk := h.forced hthunk
  spliced hinline := by
    rcases eq_or_inline?_of_addInline hinline with rfl | hold
    · exact hv
    · exact h.spliced hold

/-- A store with the same frames, deferred values and spliced values. -/
theorem of_eq (h : s.Runs code closure) (hframes : t.frames = s.frames)
    (hthunks : t.thunks = s.thunks) (hinlines : t.inlines = s.inlines) :
    t.Runs code closure where
  bound hbinding := by
    rw [binding?, bindings, hframes] at hbinding
    exact h.bound hbinding
  pending hthunk := by
    rw [thunk?, hthunks] at hthunk
    exact h.pending hthunk
  forced hthunk := by
    rw [thunk?, hthunks] at hthunk
    exact h.forced hthunk
  spliced hinline := by
    rw [inline?, hinlines] at hinline
    exact h.spliced hinline

/-! ### Demands -/

theorem enter (h : s.Runs code closure) (id : ThunkId) : (s.enter id).Runs code closure := by
  have hdeeper : ({ s with depth := s.depth + 1 } : Store).Runs code closure := h.of_eq rfl rfl rfl
  exact hdeeper.setThunk id (by rintro e env ⟨⟩) (by rintro v ⟨⟩)

/-- At the end of a demand the value is there, or its expression again. -/
theorem leave (h : s.Runs code closure) (id : ThunkId) {x : Thunk}
    (hpending : ∀ e env, x = .pending e env → code env e)
    (hforced : ∀ v, x = .forced v → v.Runs closure) : (s.leave id x).Runs code closure := by
  have hback : ({ s with depth := s.depth - 1 } : Store).Runs code closure := h.of_eq rfl rfl rfl
  exact hback.setThunk id hpending hforced

end Store.Runs

end PipeLang
