import PipeLang.Pipe.Strategy

/-!
# Stores with more frames

To make a frame leaves all others as they are (`Store.Grows`), so an environment whose frames are
in the store (`Store.HasFrames`) finds every name bound as before.

Stages of chains and calls of closures with one parameter make a frame that binds one name, to a
deferred value of its own (`Store.addDeferred`).  In an environment within that frame the name
refers to the deferred value, and any other name to what it refers to around it.
-/

namespace PipeLang

/-- The frames that an environment sees are in the store. -/
def Store.HasFrames (s : Store) (env : Env) : Prop :=
  ∀ frame ∈ env.visible, frame.index < s.frames.size

instance (s : Store) (env : Env) : Decidable (s.HasFrames env) :=
  inferInstanceAs (Decidable (∀ frame ∈ env.visible, frame.index < s.frames.size))

/-- All frames of the first store are in the second one, and bind the same. -/
structure Store.Grows (s t : Store) : Prop where
  size_le : s.frames.size ≤ t.frames.size
  bindings : ∀ {frame : FrameId}, frame.index < s.frames.size → t.bindings frame = s.bindings frame

/-- Make a frame that binds one name, deferred to an expression. -/
def Store.addDeferred (s : Store) (name : String) (e : Expr) (env : Env) : Store :=
  (s.addFrame []).bindDeferred s.nextFrame name e env

theorem Store.addStage_eq (s : Store) (env : Env) (e : Expr) :
    s.addStage env e = (env.within s.nextFrame, s.addDeferred placeholder e env) := rfl

namespace Store

variable {s t u : Store} {env : Env}

/-! ### Growing -/

theorem Grows.refl (s : Store) : s.Grows s := ⟨Nat.le_refl _, fun _ => rfl⟩

/-- Stores grow by parts. -/
theorem Grows.trans (hst : s.Grows t) (htu : t.Grows u) : s.Grows u where
  size_le := Nat.le_trans hst.size_le htu.size_le
  bindings h := (htu.bindings (Nat.lt_of_lt_of_le h hst.size_le)).trans (hst.bindings h)

/-- Growing is about frames alone. -/
theorem Grows.of_frames_eq (h : s.Grows t) (hframes : u.frames = t.frames) : s.Grows u where
  size_le := by rw [hframes]; exact h.size_le
  bindings hframe := by
    rw [Store.bindings, hframes]
    exact h.bindings hframe

theorem grows_addFrame (s : Store) (bindings : Fields Binding) : s.Grows (s.addFrame bindings) where
  size_le := by
    rw [addFrame, Array.size_push]
    exact Nat.le_succ _
  bindings h := bindings_addFrame_of_ne (ne_nextFrame_of_lt h) bindings

/-- In frames that were there before, a name is found as before. -/
theorem Grows.find?_eq (h : s.Grows t) (henv : s.HasFrames env) (name : String) :
    t.find? env name = s.find? env name :=
  find?_congr fun frame hframe => by rw [binding?, h.bindings (henv frame hframe), binding?]

theorem HasFrames.rootFrame (henv : s.HasFrames env) : env.rootFrame.index < s.frames.size :=
  henv _ (List.getLast_mem _)

/-- A name stands for what it stood for before the store has grown. -/
theorem Grows.resolve_eq (h : s.Grows t) (henv : s.HasFrames env) (name : String) :
    t.resolve env name = s.resolve env name := by
  unfold resolve
  split
  · rw [binding?, h.bindings henv.rootFrame, binding?]
  · rw [h.find?_eq henv]

theorem HasFrames.of_grows (h : s.HasFrames env) (hgrows : s.Grows t) : t.HasFrames env :=
  fun frame hframe => Nat.lt_of_lt_of_le (h frame hframe) hgrows.size_le

/-- A frame that has been made may be put in front of those that were there. -/
theorem HasFrames.within (h : s.HasFrames env) (hgrows : s.Grows t) {frame : FrameId}
    (hframe : frame.index < t.frames.size) : t.HasFrames (env.within frame) := by
  intro other hother
  rw [Env.visible_within] at hother
  rcases List.mem_cons.1 hother with rfl | hother
  · exact hframe
  · exact h.of_grows hgrows other hother

/-! ### Frames with one name -/

/-- A frame with one name offers that name. -/
theorem find?_within_self {frame : FrameId} {name : String} {b : Binding}
    (h : s.bindings frame = [(name, b)]) : s.find? (env.within frame) name = some b := by
  refine find?_of_own ?_
  show s.binding? frame name = some b
  rw [binding?, h, Fields.get?, if_pos rfl]

/-- Any other name is looked up further out. -/
theorem find?_within_of_ne {frame : FrameId} {name key : String} {b : Binding}
    (h : s.bindings frame = [(name, b)]) (hne : key ≠ name) :
    s.find? (env.within frame) key = s.find? env key := by
  refine find?_within_of_none ?_
  rw [binding?, h, Fields.get?, if_neg hne.symm, Fields.get?]

theorem resolve_within_of_ne {frame : FrameId} {name key : String} {b : Binding}
    (h : s.bindings frame = [(name, b)]) (hne : key ≠ name) :
    s.resolve (env.within frame) key = s.resolve env key := by
  unfold resolve
  rw [Env.rootFrame_within, find?_within_of_ne h hne]

/-- The frame that is made for a deferred name is new. -/
theorem grows_addDeferred (s : Store) (name : String) (e : Expr) (env : Env) :
    s.Grows (s.addDeferred name e env) := by
  have hadded := grows_addFrame s []
  refine ⟨?_, fun {frame} h => ?_⟩
  · rw [addDeferred, size_frames_bindDeferred]
    exact hadded.size_le
  · exact (bindings_bind_of_ne (ne_nextFrame_of_lt h) _ _ _).trans (hadded.bindings h)

theorem lt_size_addDeferred (s : Store) (name : String) (e : Expr) (env : Env) :
    s.nextFrame.index < (s.addDeferred name e env).frames.size := by
  rw [addDeferred, size_frames_bindDeferred, addFrame, Array.size_push]
  exact Nat.lt_succ_self _

/-- The new frame binds the name and nothing else. -/
theorem bindings_addDeferred (s : Store) (name : String) (e : Expr) (env : Env) :
    (s.addDeferred name e env).bindings s.nextFrame = [(name, .deferred s.nextThunk)] := by
  show (((s.addFrame []).addThunk e env).bind s.nextFrame name _).bindings s.nextFrame = _
  rw [bindings_bind _ _ _ _ _ (by simp [addThunk, addFrame, nextFrame]), if_pos rfl]
  show Fields.insert name _ ((s.addFrame []).bindings s.nextFrame) = _
  rw [bindings_addFrame_nextFrame]
  rfl

/-- One deferred value is made, and waits for its expression. -/
theorem thunk?_addDeferred (s : Store) (name : String) (e : Expr) (env : Env) (id : ThunkId) :
    (s.addDeferred name e env).thunk? id =
      if id = s.nextThunk then some (.pending e env) else s.thunk? id :=
  thunk?_addThunk (s.addFrame []) e env id

theorem thunk?_addDeferred_self (s : Store) (name : String) (e : Expr) (env : Env) :
    (s.addDeferred name e env).thunk? s.nextThunk = some (.pending e env) := by
  rw [thunk?_addDeferred, if_pos rfl]

end Store

end PipeLang
