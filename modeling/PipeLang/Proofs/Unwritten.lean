import PipeLang.Proofs.Held
import PipeLang.Proofs.Request

/-!
# Frames that are not written

An evaluation writes to the own frames of environments and to frames around them, and it comes upon
no other environments than its own, those that the store holds and those within them.  So a frame
stays as it is if no such environment writes to it: if all of them are of a kind that avoids the
frame (`Env.Avoiding`), which may be that they do not see it at all (`Env.avoiding_unseen`).

The invariant for this is `Invariant.unwritten`; what it comes to for one evaluation, of a frame
that nothing sees, is `Evaluator.bindings_eval_of_unseen`.
-/

namespace PipeLang

/-- Environments of the kind do not write to the frame, nor do those within them. -/
structure Env.Avoiding (frame : FrameId) (kind : Env → Prop) : Prop where
  own : ∀ {env}, kind env → env.own ≠ frame
  assigned : ∀ {env}, kind env → ∀ (s : Store) (name : String), s.assignedFrame env name ≠ frame
  within : ∀ {env other}, kind env → other ≠ frame → kind (env.within other)

/-- The frame binds this, and all environments of the store are of the kind. -/
structure Store.Unwritten (frame : FrameId) (kind : Env → Prop) (fields : Fields Binding)
    (s : Store) : Prop where
  lt_size : frame.index < s.frames.size
  bindings : s.bindings frame = fields
  held : ∀ env, s.Holds env → kind env

namespace Store.Unwritten

variable {frame : FrameId} {kind : Env → Prop} {fields : Fields Binding} {s t : Store} {env : Env}

theorem nextFrame_ne (hs : s.Unwritten frame kind fields) : s.nextFrame ≠ frame := by
  rintro rfl
  exact Nat.lt_irrefl _ hs.lt_size

/-- A write to another frame leaves this one unwritten, if the value is over environments of the
kind. -/
theorem bind (hs : s.Unwritten frame kind fields) {other : FrameId} (hother : other ≠ frame)
    (name : String) {b : Binding} (hb : ∀ v, b = .value v → v.Over kind) :
    (s.bind other name b).Unwritten frame kind fields where
  lt_size := by
    rw [size_frames_bind]
    exact hs.lt_size
  bindings := by rw [bindings_bind_of_ne hother.symm, hs.bindings]
  held env henv := by
    rcases Holds.of_bind henv with ⟨v, hv, hmem⟩ | hold
    · exact hb v hv env hmem
    · exact hs.held env hold

theorem unbind (hs : s.Unwritten frame kind fields) {other : FrameId} (hother : other ≠ frame)
    (name : String) : (s.unbind other name).Unwritten frame kind fields where
  lt_size := by
    rw [size_frames_unbind]
    exact hs.lt_size
  bindings := by rw [bindings_unbind_of_ne hother.symm, hs.bindings]
  held env henv := hs.held env (Holds.of_unbind henv)

/-- A new frame is not this one. -/
theorem addFrame (hs : s.Unwritten frame kind fields) {added : Fields Binding}
    (h : ∀ name v, added.get? name = some (.value v) → v.Over kind) :
    (s.addFrame added).Unwritten frame kind fields where
  lt_size := by
    rw [Store.addFrame, Array.size_push]
    exact Nat.lt_succ_of_lt hs.lt_size
  bindings := by rw [bindings_addFrame_of_ne hs.nextFrame_ne.symm, hs.bindings]
  held env henv := by
    rcases Holds.of_addFrame henv with ⟨name, v, hv, hmem⟩ | hold
    · exact h name v hv env hmem
    · exact hs.held env hold

theorem addThunk (hs : s.Unwritten frame kind fields) (henv : kind env) (e : Expr) :
    (s.addThunk e env).Unwritten frame kind fields where
  lt_size := hs.lt_size
  bindings := hs.bindings
  held other hother := by
    rcases Holds.of_addThunk hother with rfl | hold
    · exact henv
    · exact hs.held other hold

theorem setThunk (hs : s.Unwritten frame kind fields) (id : ThunkId) {x : Thunk}
    (hpending : ∀ e env, x = .pending e env → kind env)
    (hforced : ∀ v, x = .forced v → v.Over kind) :
    (s.setThunk id x).Unwritten frame kind fields where
  lt_size := hs.lt_size
  bindings := hs.bindings
  held env henv := by
    rcases Holds.of_setThunk henv with ⟨e, he⟩ | ⟨v, hv, hmem⟩ | hold
    · exact hpending e env he
    · exact hforced v hv env hmem
    · exact hs.held env hold

theorem addInline (hs : s.Unwritten frame kind fields) {v : Value} (hv : v.Over kind) :
    (s.addInline v).Unwritten frame kind fields where
  lt_size := hs.lt_size
  bindings := hs.bindings
  held env henv := by
    rcases Holds.of_addInline henv with hmem | hold
    · exact hv env hmem
    · exact hs.held env hold

/-- What does not touch frames, deferred values and spliced values. -/
theorem of_eq (hs : s.Unwritten frame kind fields) (hframes : t.frames = s.frames)
    (hthunks : t.thunks = s.thunks) (hinlines : t.inlines = s.inlines) :
    t.Unwritten frame kind fields where
  lt_size := by rw [hframes]; exact hs.lt_size
  bindings := by rw [Store.bindings, hframes]; exact hs.bindings
  held env henv := hs.held env (henv.of_eq hframes hthunks hinlines)

end Store.Unwritten

/-! ### The invariant -/

/-- Evaluations in environments of a kind, over stores in which the frame binds this. -/
def Invariant.unwritten (frame : FrameId) (kind : Env → Prop) (fields : Fields Binding) :
    Invariant where
  env := kind
  store := Store.Unwritten frame kind fields
  mayGiveUp := False

namespace Invariant

variable {frame : FrameId} {kind : Env → Prop} {fields : Fields Binding}

theorem value_unwritten_iff {v : Value} :
    (unwritten frame kind fields).value v ↔ v.Over kind :=
  Value.over_iff_runs.symm

/-- What no environment of the kind sees is never written: every write goes to a frame that is seen.
-/
theorem lawful_unwritten (hkind : Env.Avoiding frame kind) (fields : Fields Binding) :
    (unwritten frame kind fields).Lawful where
  unnoticed := .id
  within hs henv := hkind.within henv hs.nextFrame_ne
  ofBinding hs hbinding :=
    value_unwritten_iff.2 fun env henv => hs.held env (.bound hbinding henv)
  ofInline hs hinline := value_unwritten_iff.2 fun env henv => hs.held env (.spliced hinline henv)
  bind hs henv hb := by
    refine hs.bind (hkind.own henv) _ fun v hv => ?_
    subst hv
    exact value_unwritten_iff.1 hb
  unbind hs henv := hs.unbind (hkind.own henv) _
  assignOuter hs henv hv := by
    refine hs.bind (hkind.assigned henv _ _) _ fun w hw => ?_
    cases hw
    exact value_unwritten_iff.1 hv
  addFrame hs h := hs.addFrame fun name v hv => value_unwritten_iff.1 (h name (.value v) hv)
  addThunk hs henv := hs.addThunk henv _
  addInline hs hv := hs.addInline (value_unwritten_iff.1 hv)
  addFunction hs := hs.of_eq rfl rfl rfl
  print hs := hs.of_eq rfl rfl rfl

/-- A deferred value is evaluated in the environment that is kept with it, which is of the kind. -/
theorem forces_unwritten {ev other : Evaluator}
    (hev : (unwritten frame kind fields).Agree ev other) :
    (unwritten frame kind fields).Forces ev other := by
  refine forces_of_inner rfl ?_ fun s id e env hs hpending _ => ?_
  · exact fun s id v hs hforced =>
      value_unwritten_iff.2 fun env henv => hs.held env (.forced hforced henv)
  · have henv : kind env := hs.held env (.pending hpending)
    refine ⟨unwritten frame kind fields, rfl, fun h => h, hev.eval env henv e trivial, ?_,
      fun r t _ ht => ⟨?_, ?_⟩⟩
    -- marking and unmarking change the depth, and the state of a value that is known to be good
    · have hentered : ({ s with depth := s.depth + 1 } : Store).Unwritten frame kind fields :=
        hs.of_eq rfl rfl rfl
      exact hentered.setThunk id (by rintro _ _ ⟨⟩) (by rintro _ ⟨⟩)
    · have hleft : ({ t with depth := t.depth - 1 } : Store).Unwritten frame kind fields :=
        ht.of_eq rfl rfl rfl
      refine hleft.setThunk id ?_ (by rintro _ ⟨⟩)
      rintro _ _ ⟨⟩
      exact henv
    · intro v _ hv
      have hleft : ({ t with depth := t.depth - 1 } : Store).Unwritten frame kind fields :=
        ht.of_eq rfl rfl rfl
      refine ⟨hv, hleft.setThunk id (by rintro _ _ ⟨⟩) ?_⟩
      rintro _ ⟨⟩
      exact value_unwritten_iff.1 hv

/-- No evaluation writes to the frame, so that it binds what it bound. -/
theorem kept_unwritten (hkind : Env.Avoiding frame kind) (fields : Fields Binding) :
    Kept fun _ : Unit => unwritten frame kind fields :=
  .of_lawful (fun _ => rfl) (fun _ => lawful_unwritten hkind fields)
    fun _ _ hagree _ => forces_unwritten (hagree ())

end Invariant

/-! ### Frames that nothing sees -/

/-- An environment that does not see the frame does not write to it. -/
theorem Env.avoiding_unseen (frame : FrameId) : Avoiding frame fun env => frame ∉ env.visible where
  own henv heq := henv (heq ▸ List.mem_cons_self)
  assigned henv s name heq := henv (heq ▸ s.assignedFrame_mem_visible _ name)
  within henv hother := by
    rw [visible_within, List.mem_cons, not_or]
    exact ⟨hother.symm, henv⟩

/-- A frame that no environment of an evaluation sees binds the same at its end. -/
theorem Evaluator.bindings_eval_of_unseen {frame : FrameId} {env : Env} {s : Store}
    (hframe : frame.index < s.frames.size) (henv : frame ∉ env.visible)
    (hheld : ∀ env, s.Holds env → frame ∉ env.visible) (n : Nat) (e : Expr) :
    ((level n).eval env e s).2.bindings frame = s.bindings frame := by
  have hkept := Invariant.kept_unwritten (Env.avoiding_unseen frame) (s.bindings frame)
  have hagrees := (hkept.agree n ()).eval env henv e trivial
  exact (hagrees.of_not_mayGiveUp (fun h => h) ⟨hframe, rfl, hheld⟩).2.1.bindings

end PipeLang
