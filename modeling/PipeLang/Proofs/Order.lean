import PipeLang.Proofs.Frames

/-!
# Frames stay in order

A frame whose names are in order keeps them in order, whatever is evaluated
(`Evaluator.ordered_evalSteps`).  So it is determined by what its names are bound to.  In particular
it does not matter that a chain has put the placeholder back if it is bound again after it
(`Store.define_rebind`).
-/

namespace PipeLang

variable {s : Store} {frame : FrameId}

namespace Store

/-- The frame is there, and its names are in order. -/
structure HasOrdered (s : Store) (frame : FrameId) : Prop where
  lt_size : frame.index < s.frames.size
  ordered : (s.bindings frame).Ordered

namespace HasOrdered

/-- The names of a frame stay in order if what is done to its bindings keeps them so. -/
theorem modify (h : s.HasOrdered frame) (other : FrameId)
    {f : Fields Binding → Fields Binding} (hf : ∀ fields, fields.Ordered → (f fields).Ordered) :
    HasOrdered { s with frames := s.frames.modify other.index f } frame where
  lt_size := by
    rw [Array.size_modify]
    exact h.lt_size
  ordered := by
    rcases bindings_modify_eq_or s other frame f with heq | ⟨-, heq⟩
    · exact heq ▸ h.ordered
    · exact heq ▸ hf _ h.ordered

theorem bind (h : s.HasOrdered frame) (other : FrameId) (name : String) (b : Binding) :
    (s.bind other name b).HasOrdered frame :=
  h.modify other fun _ hfields => hfields.insert name b

theorem unbind (h : s.HasOrdered frame) (other : FrameId) (name : String) :
    (s.unbind other name).HasOrdered frame :=
  h.modify other fun _ hfields => hfields.erase name

/-- New frames do not matter. -/
theorem addFrame (h : s.HasOrdered frame) (bindings : Fields Binding) :
    (s.addFrame bindings).HasOrdered frame where
  lt_size := by
    rw [Store.addFrame, Array.size_push]
    exact Nat.lt_succ_of_lt h.lt_size
  ordered := by
    rw [bindings_addFrame_of_ne (ne_nextFrame_of_lt h.lt_size)]
    exact h.ordered

end HasOrdered

/-- What a name is put back to does not matter if it is bound again. -/
theorem define_rebind {env : Env} (h : s.HasOrdered env.own) (name : String)
    (saved : Option Binding) (v : Value) :
    (s.rebind env.own name saved).define env name v = s.define env name v := by
  -- what a rebinding does to the frame is undone by the write to the same name
  have hrewrite : ∀ f : Fields Binding → Fields Binding,
      Fields.insert name (.value v) (f (s.bindings env.own)) =
        Fields.insert name (.value v) (s.bindings env.own) →
      (s.frames.modify env.own.index f).modify env.own.index (Fields.insert name (.value v)) =
        s.frames.modify env.own.index (Fields.insert name (.value v)) := by
    intro f hf
    have hown : s.frames[env.own.index]? = some (s.bindings env.own) := by
      rw [bindings, Array.getElem?_eq_getElem h.lt_size]
      rfl
    refine Array.ext_getElem? fun i => ?_
    rw [Array.getElem?_modify, Array.getElem?_modify, Array.getElem?_modify]
    split
    · next hi =>
      subst hi
      rw [hown]
      exact congrArg some hf
    · rfl
  cases saved with
  | some b =>
    have hframes := hrewrite (Fields.insert name b) (Fields.insert_insert name _ b _)
    exact congrArg (fun frames => { s with frames }) hframes
  | none =>
    have hframes := hrewrite (Fields.erase name) (h.ordered.insert_erase name _)
    exact congrArg (fun frames => { s with frames }) hframes

end Store

namespace Invariant

/-- Evaluations over stores in which this frame is in order. -/
def ordered (frame : FrameId) : Invariant where
  env _ := True
  store s := s.HasOrdered frame
  mayGiveUp := False

theorem value_ordered (frame : FrameId) (v : Value) : (ordered frame).value v :=
  value_of_forall (fun _ => trivial) v

/-- Only the bindings of frames matter to the order. -/
theorem lawful_ordered (frame : FrameId) : (ordered frame).Lawful where
  unnoticed := .id
  within _ _ := trivial
  ofBinding _ _ := value_ordered frame _
  ofInline _ _ := value_ordered frame _
  bind h _ _ := h.bind _ _ _
  unbind h _ := h.unbind _ _
  assignOuter h _ _ := h.bind _ _ _
  addFrame h _ := h.addFrame _
  addThunk h _ := ⟨h.lt_size, h.ordered⟩
  addInline h _ := ⟨h.lt_size, h.ordered⟩
  addFunction h := ⟨h.lt_size, h.ordered⟩
  print h := ⟨h.lt_size, h.ordered⟩

/-- To demand a deferred value does not touch the frames, and its evaluation keeps the order. -/
theorem forces_ordered {ev other : Evaluator} (hev : (ordered frame).Agree ev other) :
    (ordered frame).Forces ev other := by
  refine forces_of_inner rfl (fun _ _ _ _ _ => value_ordered frame _) fun s id e env hs _ _ => ?_
  -- marking a deferred value and taking the mark off leave the frames alone
  exact ⟨ordered frame, rfl, fun h => h, hev.eval env trivial e trivial,
    ⟨hs.lt_size, hs.ordered⟩, fun r t _ ht =>
      ⟨⟨ht.lt_size, ht.ordered⟩, fun _ _ hv => ⟨hv, ht.lt_size, ht.ordered⟩⟩⟩

theorem kept_ordered : Kept ordered :=
  .of_lawful (fun _ => rfl) lawful_ordered fun _ _ h frame => forces_ordered (h frame)

end Invariant

/-- The steps of a chain keep the names of a frame in order. -/
theorem Evaluator.ordered_evalSteps (h : s.HasOrdered frame) (n : Nat) (env : Env)
    (es : List Expr) : ((level n).evalSteps env es s).2.HasOrdered frame := by
  have hagrees := (Invariant.kept_ordered.agree n frame).evalSteps
    (Invariant.lawful_ordered frame) (show (Invariant.ordered frame).env env from trivial) es
  exact (hagrees.of_not_mayGiveUp (fun h => h) h).2.1

end PipeLang
