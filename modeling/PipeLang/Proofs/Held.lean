import PipeLang.Proofs.Demand

/-!
# Environments held by a store

A store holds an environment in a bound value, in a deferred value or in a value spliced into an
expression.  These are the environments that an evaluation can come upon besides its own.

Each way of writing to a store adds only the environments of what is written
(`Holds.of_bind`, `Holds.of_addFrame`, `Holds.of_setThunk`, `Holds.of_addInline`).
-/

namespace PipeLang.Store

/-- The environment is kept somewhere in the store. -/
inductive Holds (s : Store) (env : Env) : Prop where
  | bound {frame : FrameId} {name : String} {v : Value}
      (hbinding : s.binding? frame name = some (.value v)) (henv : env ∈ v.envs)
  | pending {id : ThunkId} {e : Expr} (hthunk : s.thunk? id = some (.pending e env))
  | forced {id : ThunkId} {v : Value} (hthunk : s.thunk? id = some (.forced v))
      (henv : env ∈ v.envs)
  | spliced {ref : InlineRef} {v : Value} (hinline : s.inline? ref = some v) (henv : env ∈ v.envs)

namespace Holds

variable {s t : Store} {env : Env}

/-! ### Frames -/

/-- A write to a frame adds no environments but those of the value that is written. -/
theorem of_bind {frame : FrameId} {name : String} {b : Binding}
    (h : (s.bind frame name b).Holds env) :
    (∃ v, b = .value v ∧ env ∈ v.envs) ∨ s.Holds env := by
  cases h with
  | bound hbinding henv =>
    rcases eq_or_binding?_of_bind hbinding with heq | hold
    · exact .inl ⟨_, heq.symm, henv⟩
    · exact .inr (.bound hold henv)
  | pending hthunk => exact .inr (.pending hthunk)
  | forced hthunk henv => exact .inr (.forced hthunk henv)
  | spliced hinline henv => exact .inr (.spliced hinline henv)

theorem of_unbind {frame : FrameId} {name : String} (h : (s.unbind frame name).Holds env) :
    s.Holds env := by
  cases h with
  | bound hbinding henv => exact .bound (binding?_of_unbind hbinding) henv
  | pending hthunk => exact .pending hthunk
  | forced hthunk henv => exact .forced hthunk henv
  | spliced hinline henv => exact .spliced hinline henv

/-- A new frame adds those of the values that it binds. -/
theorem of_addFrame {bindings : Fields Binding} (h : (s.addFrame bindings).Holds env) :
    (∃ name v, bindings.get? name = some (.value v) ∧ env ∈ v.envs) ∨ s.Holds env := by
  cases h with
  | bound hbinding henv =>
    rcases binding?_of_addFrame hbinding with hnew | hold
    · exact .inl ⟨_, _, hnew, henv⟩
    · exact .inr (.bound hold henv)
  | pending hthunk => exact .inr (.pending hthunk)
  | forced hthunk henv => exact .inr (.forced hthunk henv)
  | spliced hinline henv => exact .inr (.spliced hinline henv)

/-! ### Deferred values -/

/-- A change of a deferred value adds its environment or those of its value. -/
theorem of_setThunk {id : ThunkId} {x : Thunk} (h : (s.setThunk id x).Holds env) :
    (∃ e, x = .pending e env) ∨ (∃ v, x = .forced v ∧ env ∈ v.envs) ∨ s.Holds env := by
  cases h with
  | bound hbinding henv => exact .inr (.inr (.bound hbinding henv))
  | pending hthunk =>
    rcases eq_or_thunk?_of_setThunk hthunk with heq | hold
    · exact .inl ⟨_, heq.symm⟩
    · exact .inr (.inr (.pending hold))
  | forced hthunk henv =>
    rcases eq_or_thunk?_of_setThunk hthunk with heq | hold
    · exact .inr (.inl ⟨_, heq.symm, henv⟩)
    · exact .inr (.inr (.forced hold henv))
  | spliced hinline henv => exact .inr (.inr (.spliced hinline henv))

/-- A new deferred value adds the environment in which it will be evaluated. -/
theorem of_addThunk {e : Expr} {scope : Env} (h : (s.addThunk e scope).Holds env) :
    env = scope ∨ s.Holds env := by
  cases h with
  | bound hbinding henv => exact .inr (.bound hbinding henv)
  | pending hthunk =>
    rw [thunk?_addThunk] at hthunk
    split at hthunk
    · cases hthunk
      exact .inl rfl
    · exact .inr (.pending hthunk)
  | forced hthunk henv =>
    rw [thunk?_addThunk] at hthunk
    split at hthunk
    · cases hthunk
    · exact .inr (.forced hthunk henv)
  | spliced hinline henv => exact .inr (.spliced hinline henv)

/-! ### Spliced values and the rest -/

/-- A spliced value adds its environments. -/
theorem of_addInline {v : Value} (h : (s.addInline v).Holds env) :
    env ∈ v.envs ∨ s.Holds env := by
  cases h with
  | bound hbinding henv => exact .inr (.bound hbinding henv)
  | pending hthunk => exact .inr (.pending hthunk)
  | forced hthunk henv => exact .inr (.forced hthunk henv)
  | spliced hinline henv =>
    rcases eq_or_inline?_of_addInline hinline with rfl | hold
    · exact .inl henv
    · exact .inr (.spliced hold henv)

/-- Two stores with the same frames, deferred values and spliced values. -/
theorem of_eq (hframes : t.frames = s.frames) (hthunks : t.thunks = s.thunks)
    (hinlines : t.inlines = s.inlines) (h : t.Holds env) : s.Holds env := by
  cases s
  cases t
  cases hframes
  cases hthunks
  cases hinlines
  cases h with
  | bound hbinding henv => exact .bound hbinding henv
  | pending hthunk => exact .pending hthunk
  | forced hthunk henv => exact .forced hthunk henv
  | spliced hinline henv => exact .spliced hinline henv

end Holds

end PipeLang.Store
