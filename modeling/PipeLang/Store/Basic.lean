import PipeLang.Value.Basic

/-!
# The store

All that changes while a program runs: what the frames of variables bind, how far the deferred
values are evaluated, which values are spliced into expressions, and what has been printed.

Frames and deferred values are told apart by the order in which they are made and are never
removed.  The views of a store are `binding?` and `thunk?`; each writing operation has a lemma for
the entry it writes and one for the others.
-/

namespace PipeLang

/-- A deferred value in the store. -/
structure ThunkId where
  index : Nat
deriving DecidableEq, Inhabited

/-- What a name is bound to. -/
inductive Binding where
  | value (v : Value)
  | deferred (id : ThunkId)
deriving Inhabited

/-- How far a deferred value is evaluated. -/
inductive Thunk where
  /-- Not at all: an expression and the environment for it. -/
  | pending (expr : Expr) (env : Env)
  /-- Its evaluation has begun. -/
  | evaluating
  /-- Completely. -/
  | forced (v : Value)
deriving Inhabited

/-- The changing state of a run. -/
structure Store where
  frames : Array (Fields Binding)
  thunks : Array Thunk
  /-- The values spliced into expressions. -/
  inlines : Array Value
  /-- How many functions have been made. -/
  functions : Nat
  /-- How many deferred values are being evaluated within one another. -/
  depth : Nat
  printed : String
deriving Inhabited

namespace Store

/-- The store without anything in it. -/
def empty : Store := ⟨#[], #[], #[], 0, 0, ""⟩

/-! ### Frames -/

/-- What a frame binds. -/
def bindings (s : Store) (frame : FrameId) : Fields Binding := s.frames[frame.index]?.getD []

/-- What a frame binds a name to. -/
def binding? (s : Store) (frame : FrameId) (name : String) : Option Binding :=
  (s.bindings frame).get? name

/-- Bind a name in a frame. -/
def bind (s : Store) (frame : FrameId) (name : String) (b : Binding) : Store :=
  { s with frames := s.frames.modify frame.index (Fields.insert name b) }

/-- Take a name out of a frame. -/
def unbind (s : Store) (frame : FrameId) (name : String) : Store :=
  { s with frames := s.frames.modify frame.index (Fields.erase name) }

/-- Bind a name in a frame, or take it out. -/
def rebind (s : Store) (frame : FrameId) (name : String) : Option Binding → Store
  | some b => s.bind frame name b
  | none => s.unbind frame name

/-- The frame that is made next. -/
def nextFrame (s : Store) : FrameId := ⟨s.frames.size⟩

/-- Make a frame. -/
def addFrame (s : Store) (bindings : Fields Binding) : Store :=
  { s with frames := s.frames.push bindings }

theorem bindings_modify (s : Store) (frame other : FrameId) (f : Fields Binding → Fields Binding)
    (h : frame.index < s.frames.size) :
    bindings { s with frames := s.frames.modify frame.index f } other =
      if other = frame then f (s.bindings frame) else s.bindings other := by
  obtain ⟨i⟩ := frame
  obtain ⟨j⟩ := other
  simp only at h
  by_cases hij : i = j
  · subst hij
    simp [bindings, h, Array.getElem_modify]
  · simp [bindings, Array.getElem?_modify, hij, Ne.symm hij]

/-- A frame that does not exist is not written. -/
theorem bindings_modify_eq_or (s : Store) (frame other : FrameId)
    (f : Fields Binding → Fields Binding) :
    bindings { s with frames := s.frames.modify frame.index f } other = s.bindings other ∨
      other = frame ∧
        bindings { s with frames := s.frames.modify frame.index f } other =
          f (s.bindings other) := by
  rcases Nat.lt_or_ge frame.index s.frames.size with h | h
  · rw [bindings_modify s frame other f h]
    split
    · next heq => exact .inr ⟨heq, by rw [heq]⟩
    · exact .inl rfl
  · refine .inl ?_
    have hnone : s.frames[frame.index]? = none := Array.getElem?_eq_none h
    by_cases heq : frame.index = other.index
    · rw [heq] at hnone
      simp [bindings, Array.getElem?_modify, heq, hnone]
    · simp [bindings, Array.getElem?_modify, heq]

theorem bindings_bind (s : Store) (frame other : FrameId) (name : String) (b : Binding)
    (h : frame.index < s.frames.size) :
    (s.bind frame name b).bindings other =
      if other = frame then (s.bindings frame).insert name b else s.bindings other :=
  bindings_modify s frame other _ h

theorem bindings_unbind (s : Store) (frame other : FrameId) (name : String)
    (h : frame.index < s.frames.size) :
    (s.unbind frame name).bindings other =
      if other = frame then (s.bindings frame).erase name else s.bindings other :=
  bindings_modify s frame other _ h

theorem bindings_bind_of_ne {frame other : FrameId} (hne : other ≠ frame) (s : Store)
    (name : String) (b : Binding) : (s.bind frame name b).bindings other = s.bindings other := by
  obtain ⟨i⟩ := frame
  obtain ⟨j⟩ := other
  have hij : i ≠ j := fun h => hne (h ▸ rfl)
  simp [bind, bindings, Array.getElem?_modify, hij]

theorem binding?_bind_self (s : Store) (frame : FrameId) (name : String) (b : Binding)
    (h : frame.index < s.frames.size) : (s.bind frame name b).binding? frame name = some b := by
  simp [binding?, bindings_bind, h]

theorem binding?_bind_of_ne {frame other : FrameId} {name key : String}
    (hne : other ≠ frame ∨ key ≠ name) (s : Store) (b : Binding) :
    (s.bind frame name b).binding? other key = s.binding? other key := by
  rw [binding?, binding?]
  rcases bindings_modify_eq_or s frame other (Fields.insert name b) with heq | ⟨hsame, heq⟩
  · exact congrArg (Fields.get? key) heq
  · have hkey : key ≠ name := hne.resolve_left (· hsame)
    exact (congrArg (Fields.get? key) heq).trans (Fields.get?_insert_of_ne hkey b _)

@[simp] theorem size_frames_bind (s : Store) (frame : FrameId) (name : String) (b : Binding) :
    (s.bind frame name b).frames.size = s.frames.size :=
  Array.size_modify

@[simp] theorem size_frames_unbind (s : Store) (frame : FrameId) (name : String) :
    (s.unbind frame name).frames.size = s.frames.size :=
  Array.size_modify

theorem bindings_unbind_of_ne {frame other : FrameId} (hne : other ≠ frame) (s : Store)
    (name : String) : (s.unbind frame name).bindings other = s.bindings other :=
  (bindings_modify_eq_or s frame other _).resolve_right fun h => hne h.1

theorem eq_or_binding?_of_bind {s : Store} {frame other : FrameId} {name key : String}
    {b found : Binding} (h : (s.bind frame name b).binding? other key = some found) :
    found = b ∨ s.binding? other key = some found := by
  rw [binding?] at h
  rcases bindings_modify_eq_or s frame other (Fields.insert name b) with heq | ⟨-, heq⟩
  · exact .inr ((congrArg (Fields.get? key) heq).symm.trans h)
  · exact Fields.eq_or_get?_of_get?_insert ((congrArg (Fields.get? key) heq).symm.trans h)

theorem binding?_of_unbind {s : Store} {frame other : FrameId} {name key : String}
    {found : Binding} (h : (s.unbind frame name).binding? other key = some found) :
    s.binding? other key = some found := by
  rw [binding?] at h
  rcases bindings_modify_eq_or s frame other (Fields.erase name) with heq | ⟨-, heq⟩
  · exact (congrArg (Fields.get? key) heq).symm.trans h
  · exact Fields.get?_of_get?_erase ((congrArg (Fields.get? key) heq).symm.trans h)

theorem ne_nextFrame_of_lt {s : Store} {frame : FrameId} (h : frame.index < s.frames.size) :
    frame ≠ s.nextFrame := by
  rintro rfl
  exact Nat.lt_irrefl _ h

theorem bindings_addFrame_of_ne {s : Store} {frame : FrameId} (h : frame ≠ s.nextFrame)
    (bindings : Fields Binding) : (s.addFrame bindings).bindings frame = s.bindings frame := by
  obtain ⟨i⟩ := frame
  have hi : i ≠ s.frames.size := fun hi => h (by rw [hi]; rfl)
  simp [Store.bindings, addFrame, Array.getElem?_push, hi]

@[simp] theorem bindings_addFrame_nextFrame (s : Store) (bindings : Fields Binding) :
    (s.addFrame bindings).bindings s.nextFrame = bindings := by
  simp [Store.bindings, addFrame, nextFrame]

theorem binding?_of_addFrame {s : Store} {bindings : Fields Binding} {frame : FrameId}
    {key : String} {found : Binding} (h : (s.addFrame bindings).binding? frame key = some found) :
    bindings.get? key = some found ∨ s.binding? frame key = some found := by
  rw [binding?] at h
  by_cases hframe : frame = s.nextFrame
  · subst hframe
    rw [bindings_addFrame_nextFrame] at h
    exact .inl h
  · rw [bindings_addFrame_of_ne hframe] at h
    exact .inr h

/-! ### Deferred values -/

/-- How far a deferred value is evaluated. -/
def thunk? (s : Store) (id : ThunkId) : Option Thunk := s.thunks[id.index]?

/-- Change how far a deferred value is evaluated. -/
def setThunk (s : Store) (id : ThunkId) (t : Thunk) : Store :=
  { s with thunks := s.thunks.setIfInBounds id.index t }

/-- The deferred value that is made next. -/
def nextThunk (s : Store) : ThunkId := ⟨s.thunks.size⟩

/-- Make a deferred value. -/
def addThunk (s : Store) (expr : Expr) (env : Env) : Store :=
  { s with thunks := s.thunks.push (.pending expr env) }

/-- Bind a name in a frame to an expression, to be evaluated when it is needed. -/
def bindDeferred (s : Store) (frame : FrameId) (name : String) (expr : Expr) (env : Env) : Store :=
  let id := s.nextThunk
  (s.addThunk expr env).bind frame name (.deferred id)

theorem thunk?_setThunk_self {s : Store} {id : ThunkId} (h : id.index < s.thunks.size)
    (t : Thunk) : (s.setThunk id t).thunk? id = some t := by
  simp [thunk?, setThunk, h]

theorem thunk?_setThunk_of_ne {id other : ThunkId} (hne : other ≠ id) (s : Store) (t : Thunk) :
    (s.setThunk id t).thunk? other = s.thunk? other := by
  obtain ⟨i⟩ := id
  obtain ⟨j⟩ := other
  have hij : i ≠ j := fun h => hne (h ▸ rfl)
  simp [thunk?, setThunk, hij]

theorem eq_or_thunk?_of_setThunk {s : Store} {id other : ThunkId} {t found : Thunk}
    (h : (s.setThunk id t).thunk? other = some found) :
    found = t ∨ s.thunk? other = some found := by
  by_cases heq : other = id
  · subst heq
    have hlt : other.index < (s.setThunk other t).thunks.size := (Array.getElem?_eq_some_iff.1 h).1
    rw [thunk?_setThunk_self (by simpa [setThunk] using hlt)] at h
    exact .inl (Option.some.inj h).symm
  · rw [thunk?_setThunk_of_ne heq] at h
    exact .inr h

theorem thunk?_addThunk (s : Store) (expr : Expr) (env : Env) (id : ThunkId) :
    (s.addThunk expr env).thunk? id =
      if id = s.nextThunk then some (.pending expr env) else s.thunk? id := by
  obtain ⟨i⟩ := id
  simp only [thunk?, addThunk, nextThunk, ThunkId.mk.injEq, Array.getElem?_push]

theorem lt_size_of_thunk? {s : Store} {id : ThunkId} {t : Thunk} (h : s.thunk? id = some t) :
    id.index < s.thunks.size :=
  (Array.getElem?_eq_some_iff.1 h).1

theorem ne_nextThunk_of_thunk? {s : Store} {id : ThunkId} {t : Thunk} (h : s.thunk? id = some t) :
    id ≠ s.nextThunk := by
  rintro rfl
  exact Nat.lt_irrefl _ (lt_size_of_thunk? h)

theorem thunk?_addThunk_of_some {s : Store} {id : ThunkId} {t : Thunk} (h : s.thunk? id = some t)
    (expr : Expr) (env : Env) : (s.addThunk expr env).thunk? id = some t := by
  rw [thunk?_addThunk, if_neg (ne_nextThunk_of_thunk? h)]
  exact h

@[simp] theorem size_frames_bindDeferred (s : Store) (frame : FrameId) (name : String)
    (expr : Expr) (env : Env) : (s.bindDeferred frame name expr env).frames.size = s.frames.size :=
  size_frames_bind (s.addThunk expr env) frame name _

/-! ### Spliced values and functions -/

/-- The value that an inline node refers to. -/
def inline? (s : Store) (ref : InlineRef) : Option Value := s.inlines[ref.index]?

/-- The reference that is made next. -/
def nextInline (s : Store) : InlineRef := ⟨s.inlines.size⟩

/-- Keep a value for an inline node. -/
def addInline (s : Store) (v : Value) : Store := { s with inlines := s.inlines.push v }

@[simp] theorem inline?_addInline_nextInline (s : Store) (v : Value) :
    (s.addInline v).inline? s.nextInline = some v := by
  simp [inline?, addInline, nextInline]

theorem eq_or_inline?_of_addInline {s : Store} {v found : Value} {ref : InlineRef}
    (h : (s.addInline v).inline? ref = some found) : found = v ∨ s.inline? ref = some found := by
  rw [inline?, addInline, Array.getElem?_push] at h
  split at h
  · exact .inl (Option.some.inj h).symm
  · exact .inr h

/-- The identity of the function that is made next. -/
def nextFunction (s : Store) : FunctionId := ⟨s.functions⟩

/-- Use up an identity. -/
def addFunction (s : Store) : Store := { s with functions := s.functions + 1 }

/-! ### Output -/

/-- Print a line. -/
def print (s : Store) (line : String) : Store := { s with printed := s.printed ++ line ++ "\n" }

end Store

end PipeLang
