import PipeLang.Proofs.Growth
import PipeLang.Proofs.Simulation

/-!
# The stages of a chain

A chain that is evaluated on demand sets up one stage for each expression but the last
(`Store.addStages`): a frame, and a deferred value to which the placeholder is bound in it.  Stages
that are set up one after the other have frames and deferred values with consecutive numbers, and
nothing that was there before changes (`Store.binding?_addStages`, `Store.thunk?_addStages`).
-/

namespace PipeLang

/-- The environment of the last of some stages, with the number of the first one's frame. -/
def Env.stages (env : Env) (first : Nat) : Nat → Env
  | 0 => env
  | count + 1 => (env.within ⟨first⟩).stages (first + 1) count

namespace Env

/-- The frames of the stages are numbered in the order in which they are made. -/
theorem own_stages (env : Env) (first count : Nat) :
    (env.stages first (count + 1)).own = ⟨first + count⟩ := by
  induction count generalizing env first with
  | zero => rfl
  | succ count ih =>
    show ((env.within ⟨first⟩).stages (first + 1) (count + 1)).own = _
    rw [ih, Nat.add_assoc, Nat.add_comm 1]

/-- The last stage is within the one before. -/
theorem stages_succ (env : Env) (first count : Nat) :
    env.stages first (count + 1) = (env.stages first count).within ⟨first + count⟩ := by
  induction count generalizing env first with
  | zero => rfl
  | succ count ih =>
    show (env.within ⟨first⟩).stages (first + 1) (count + 1) = _
    rw [ih, Nat.add_assoc, Nat.add_comm 1]
    rfl

theorem rootFrame_stages (env : Env) (first count : Nat) :
    (env.stages first count).rootFrame = env.rootFrame := by
  induction count with
  | zero => rfl
  | succ count ih => rw [stages_succ, rootFrame_within, ih]

/-- In the last stage the frames of all stages are seen, and what is seen from outside. -/
theorem mem_visible_stages {env : Env} {first count : Nat} {frame : FrameId} :
    frame ∈ (env.stages first count).visible ↔
      frame ∈ env.visible ∨ first ≤ frame.index ∧ frame.index < first + count := by
  induction count with
  | zero =>
    rw [stages, Nat.add_zero]
    exact (or_iff_left fun h => Nat.not_lt.2 h.1 h.2).symm
  | succ count ih =>
    obtain ⟨i⟩ := frame
    rw [stages_succ, visible_within, List.mem_cons, ih, FrameId.mk.injEq]
    show _ ∨ _ ∨ first ≤ i ∧ i < first + count ↔ _ ∨ first ≤ i ∧ i < first + (count + 1)
    constructor
    · rintro (rfl | h | h)
      · exact .inr ⟨Nat.le_add_right _ _, by omega⟩
      · exact .inl h
      · exact .inr ⟨h.1, by omega⟩
    · rintro (h | h)
      · exact .inr (.inl h)
      · by_cases hlast : i = first + count
        · exact .inl hlast
        · exact .inr (.inr ⟨h.1, by omega⟩)

end Env

namespace Store

/-- Make a stage for each of the expressions, one within the other. -/
def addStages (s : Store) (env : Env) : List Expr → Env × Store
  | [] => (env, s)
  | e :: rest => (s.addStage env e).2.addStages (s.addStage env e).1 rest

/-- A chain of several parts goes on in the environment of the last stage of the first part. -/
theorem evalLazy_append (ev : Evaluator) {rest : List Expr} (hrest : rest ≠ []) (es : List Expr)
    (env : Env) (s : Store) :
    ev.evalLazy env (es ++ rest) s =
      ev.evalLazy (s.addStages env es).1 rest (s.addStages env es).2 := by
  induction es generalizing env s with
  | nil => rfl
  | cons e es ih =>
    obtain ⟨next, more, hnext⟩ : ∃ next more, es ++ rest = next :: more :=
      List.exists_cons_of_ne_nil fun h => hrest (List.append_eq_nil_iff.1 h).2
    have hgo : ev.evalLazy env (e :: (es ++ rest)) s =
        ev.evalLazy (s.addStage env e).1 (es ++ rest) (s.addStage env e).2 := by
      rw [hnext]
      rfl
    exact hgo.trans (ih _ _)

/-- A chain comes to what its last step comes to in the environment of the last stage. -/
theorem evalLazy_concat (ev : Evaluator) (es : List Expr) (last : Expr) (env : Env) (s : Store) :
    ev.evalLazy env (es ++ [last]) s = ev.eval (s.addStages env es).1 last (s.addStages env es).2 :=
  evalLazy_append ev (List.cons_ne_nil last []) es env s

/-- The stages of a longer list begin with those of its first part. -/
theorem addStages_append (s : Store) (env : Env) (es more : List Expr) :
    s.addStages env (es ++ more) =
      (s.addStages env es).2.addStages (s.addStages env es).1 more := by
  induction es generalizing s env with
  | nil => rfl
  | cons e es ih => exact ih (s.addStage env e).2 (s.addStage env e).1

/-- The last stage is made in the environment of the stages before it. -/
theorem addStages_eq_addStage (s : Store) (env : Env) {es : List Expr} (hes : es ≠ []) :
    s.addStages env es = (s.addStages env es.dropLast).2.addStage
      (s.addStages env es.dropLast).1 (es.getLast hes) := by
  have happend := s.addStages_append env es.dropLast [es.getLast hes]
  rw [List.dropLast_concat_getLast hes] at happend
  exact happend

/-- Stages are added to what is there. -/
theorem grows_addStages (s : Store) (env : Env) (es : List Expr) :
    s.Grows (s.addStages env es).2 := by
  induction es generalizing s env with
  | nil => exact .refl s
  | cons e es ih => exact (s.grows_addDeferred placeholder e env).trans (ih _ _)

/-- A stage takes one frame and one deferred value. -/
theorem sizes_addDeferred (s : Store) (name : String) (e : Expr) (env : Env) :
    (s.addDeferred name e env).sizes = s.sizes.addFrame.addThunk := by
  simp [addDeferred, bindDeferred, bind, addThunk, addFrame, sizes, Sizes.addFrame, Sizes.addThunk]

/-- The environment of the last stage is known from the number of frames. -/
theorem fst_addStages (s : Store) (env : Env) (es : List Expr) :
    (s.addStages env es).1 = env.stages s.frames.size es.length := by
  induction es generalizing s env with
  | nil => rfl
  | cons e es ih =>
    have hsize : (s.addStage env e).2.frames.size = s.frames.size + 1 :=
      congrArg Sizes.frames (s.sizes_addDeferred placeholder e env)
    show ((s.addStage env e).2.addStages (s.addStage env e).1 es).1 = _
    rw [ih, hsize]
    rfl

/-- Only frames and deferred values are made, one of each for a stage. -/
theorem addStages_fields (s : Store) (env : Env) (es : List Expr) :
    (s.addStages env es).2 = { s with
      frames := (s.addStages env es).2.frames
      thunks := (s.addStages env es).2.thunks } ∧
    (s.addStages env es).2.frames.size = s.frames.size + es.length ∧
    (s.addStages env es).2.thunks.size = s.thunks.size + es.length := by
  induction es generalizing s env with
  | nil => exact ⟨rfl, rfl, rfl⟩
  | cons e es ih =>
    obtain ⟨hfields, hframes, hthunks⟩ := ih (s.addStage env e).2 (s.addStage env e).1
    have hsizes := s.sizes_addDeferred placeholder e env
    have hframe : (s.addStage env e).2.frames.size = s.frames.size + 1 :=
      congrArg Sizes.frames hsizes
    have hthunk : (s.addStage env e).2.thunks.size = s.thunks.size + 1 :=
      congrArg Sizes.thunks hsizes
    rw [hframe] at hframes
    rw [hthunk] at hthunks
    exact ⟨hfields, by rw [List.length_cons]; exact hframes.trans (by omega),
      by rw [List.length_cons]; exact hthunks.trans (by omega)⟩

theorem binding?_of_size_le {s : Store} {frame : FrameId} (h : s.frames.size ≤ frame.index)
    (name : String) : s.binding? frame name = none := by
  rw [binding?, bindings, Array.getElem?_eq_none h]
  rfl

theorem thunk?_of_size_le {s : Store} {id : ThunkId} (h : s.thunks.size ≤ id.index) :
    s.thunk? id = none :=
  Array.getElem?_eq_none h

/-- The frame of a stage binds its one name, and the other frames bind what they did. -/
theorem binding?_addDeferred (s : Store) (name : String) (e : Expr) (env : Env) (frame : FrameId)
    (key : String) :
    (s.addDeferred name e env).binding? frame key =
      if frame = s.nextFrame then if key = name then some (.deferred s.nextThunk) else none
      else s.binding? frame key := by
  show (((s.addFrame []).addThunk e env).bind s.nextFrame name _).binding? frame key = _
  have hlt : s.nextFrame.index < ((s.addFrame []).addThunk e env).frames.size := by
    simp [addThunk, addFrame, nextFrame]
  rw [binding?_bind]
  by_cases hframe : frame = s.nextFrame
  · subst hframe
    by_cases hkey : key = name
    · rw [if_pos ⟨rfl, hkey, hlt⟩, if_pos rfl, if_pos hkey]
      rfl
    · rw [if_neg fun h => hkey h.2.1, if_pos rfl, if_neg hkey]
      exact (binding?_addFrame s [] _ _).trans (if_pos rfl)
  · rw [if_neg fun h => hframe h.1, if_neg hframe]
    exact (binding?_addFrame s [] _ _).trans (if_neg hframe)

/-- The frames of the stages bind the placeholder alone. -/
theorem binding?_addStages (s : Store) (env : Env) (es : List Expr) (frame : FrameId)
    (name : String) :
    (s.addStages env es).2.binding? frame name =
      if frame.index < s.frames.size then s.binding? frame name
      else if name = placeholder ∧ frame.index < s.frames.size + es.length then
        some (.deferred ⟨s.thunks.size + (frame.index - s.frames.size)⟩)
      else none := by
  induction es generalizing s env with
  | nil =>
    split
    · rfl
    · next hge =>
      rw [if_neg fun h => hge h.2]
      exact binding?_of_size_le (Nat.not_lt.1 hge) name
  | cons e es ih =>
    have hsizes := s.sizes_addDeferred placeholder e env
    have hframe : (s.addStage env e).2.frames.size = s.frames.size + 1 :=
      congrArg Sizes.frames hsizes
    have hthunk : (s.addStage env e).2.thunks.size = s.thunks.size + 1 :=
      congrArg Sizes.thunks hsizes
    obtain ⟨i⟩ := frame
    show ((s.addStage env e).2.addStages (s.addStage env e).1 es).2.binding? ⟨i⟩ name = _
    rw [ih, hframe, hthunk, addStage_eq, binding?_addDeferred, List.length_cons]
    simp only [nextFrame, nextThunk, FrameId.mk.injEq]
    -- a frame from before, the one of the first stage, or one of the later stages
    rcases Nat.lt_trichotomy i s.frames.size with hlt | rfl | hgt
    · rw [if_pos (Nat.lt_succ_of_lt hlt), if_neg (Nat.ne_of_lt hlt), if_pos hlt]
    · rw [if_pos (Nat.lt_succ_self _), if_pos rfl, if_neg (Nat.lt_irrefl s.frames.size),
        Nat.sub_self]
      exact if_congr (by simp) rfl rfl
    · have hnext : s.thunks.size + 1 + (i - (s.frames.size + 1)) =
          s.thunks.size + (i - s.frames.size) := by omega
      rw [if_neg (Nat.not_lt.2 hgt), if_neg (Nat.not_lt.2 (Nat.le_of_lt hgt)), hnext]
      exact if_congr (and_congr_right fun _ => by omega) rfl rfl

/-- The deferred values of the stages, each in the environment of the stage before. -/
theorem thunk?_addStages (s : Store) (env : Env) (es : List Expr) (id : ThunkId) :
    (s.addStages env es).2.thunk? id =
      if id.index < s.thunks.size then s.thunk? id
      else es[id.index - s.thunks.size]?.map fun e =>
        .pending e (env.stages s.frames.size (id.index - s.thunks.size)) := by
  induction es generalizing s env with
  | nil =>
    split
    · rfl
    · next hge => exact thunk?_of_size_le (Nat.not_lt.1 hge)
  | cons e es ih =>
    have hsizes := s.sizes_addDeferred placeholder e env
    have hframe : (s.addStage env e).2.frames.size = s.frames.size + 1 :=
      congrArg Sizes.frames hsizes
    have hthunk : (s.addStage env e).2.thunks.size = s.thunks.size + 1 :=
      congrArg Sizes.thunks hsizes
    obtain ⟨i⟩ := id
    show ((s.addStage env e).2.addStages (s.addStage env e).1 es).2.thunk? ⟨i⟩ = _
    rw [ih, hframe, hthunk, addStage_eq, thunk?_addDeferred]
    simp only [nextThunk, ThunkId.mk.injEq]
    -- a deferred value from before, the one of the first stage, or one of the later stages
    rcases Nat.lt_trichotomy i s.thunks.size with hlt | rfl | hgt
    · rw [if_pos (Nat.lt_succ_of_lt hlt), if_neg (Nat.ne_of_lt hlt), if_pos hlt]
    · rw [if_pos (Nat.lt_succ_self _), if_pos rfl, if_neg (Nat.lt_irrefl s.thunks.size),
        Nat.sub_self]
      rfl
    · obtain ⟨j, rfl⟩ : ∃ j, i = s.thunks.size + 1 + j := ⟨i - (s.thunks.size + 1), by omega⟩
      have hsub : s.thunks.size + 1 + j - s.thunks.size = j + 1 := by omega
      rw [if_neg (Nat.not_lt.2 hgt), if_neg (Nat.not_lt.2 (Nat.le_of_lt hgt)),
        Nat.add_sub_cancel_left, hsub]
      rfl

end Store

end PipeLang
