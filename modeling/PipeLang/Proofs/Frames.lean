import PipeLang.Proofs.Request

/-!
# Frames are never removed

A store after an evaluation has all the frames of the store before it, so an environment that had
its frames in the store still has them, however the evaluation ends.
-/

namespace PipeLang

namespace Invariant

/-- Evaluations over stores with so many frames at least. -/
def framed (count : Nat) : Invariant where
  env _ := True
  store s := count ≤ s.frames.size
  mayGiveUp := False

theorem value_framed (count : Nat) (v : Value) : (framed count).value v :=
  value_of_forall (fun _ => trivial) v

/-- Frames are made and written to, but none is taken away. -/
theorem lawful_framed (count : Nat) : (framed count).Lawful where
  unnoticed := .id
  within _ _ := trivial
  ofBinding _ _ := value_framed count _
  ofInline _ _ := value_framed count _
  bind h _ _ := Nat.le_trans h (Nat.le_of_eq (Store.size_frames_bind ..).symm)
  unbind h _ := Nat.le_trans h (Nat.le_of_eq (Store.size_frames_unbind ..).symm)
  assignOuter h _ _ := Nat.le_trans h (Nat.le_of_eq (Store.size_frames_bind ..).symm)
  addFrame h _ := Nat.le_trans (Nat.le_succ_of_le h) (Nat.le_of_eq (Array.size_push _).symm)
  addThunk h _ := h
  addInline h _ := h
  addFunction h := h
  print h := h

theorem forces_framed {count : Nat} {ev other : Evaluator} (hev : (framed count).Agree ev other) :
    (framed count).Forces ev other := by
  refine forces_of_inner rfl (fun _ _ _ _ _ => value_framed count _) fun s id e env hs _ _ => ?_
  -- marking a deferred value and taking the mark off leave the frames alone
  exact ⟨framed count, rfl, fun h => h, hev.eval env trivial e trivial, hs, fun r t _ ht =>
    ⟨ht, fun _ _ hv => ⟨hv, ht⟩⟩⟩

theorem kept_framed : Kept framed :=
  .of_lawful (fun _ => rfl) lawful_framed fun _ _ h count => forces_framed (h count)

end Invariant

namespace Evaluator

/-- A computation that keeps all these invariants removes no frame. -/
theorem size_frames_le_of_agrees {α : Type} {good : α → Prop} {x y : Eval α} {s : Store}
    (h : (Invariant.framed s.frames.size).Agrees good x y) :
    s.frames.size ≤ (x s).2.frames.size :=
  (h.of_not_mayGiveUp (fun h => h) (Nat.le_refl _)).2.1

/-- There are at least as many frames after an evaluation as before. -/
theorem size_frames_le_eval (n : Nat) (env : Env) (e : Expr) (s : Store) :
    s.frames.size ≤ ((level n).eval env e s).2.frames.size :=
  size_frames_le_of_agrees ((Invariant.kept_framed.agree n _).eval env trivial e trivial)

theorem size_frames_le_evalChain (n : Nat) (env : Env) (isLazy : Bool) (es : List Expr)
    (s : Store) : s.frames.size ≤ ((level n).evalChain env isLazy es s).2.frames.size := by
  have hlevel := Invariant.kept_framed.agree n s.frames.size
  have hlawful := Invariant.lawful_framed s.frames.size
  have hunrolled : (Invariant.framed s.frames.size).UnrolledGood env ⟨es, none⟩ :=
    ⟨fun _ _ => trivial, fun _ _ => trivial⟩
  exact size_frames_le_of_agrees
    (hlevel.evalUnrolled hlawful.sound (hlawful.chains hlevel) trivial isLazy hunrolled)

theorem size_frames_le_evalSteps (n : Nat) (env : Env) (es : List Expr) (s : Store) :
    s.frames.size ≤ ((level n).evalSteps env es s).2.frames.size :=
  size_frames_le_of_agrees ((Invariant.kept_framed.agree n _).evalSteps
    (Invariant.lawful_framed _) trivial es)

end Evaluator

end PipeLang
