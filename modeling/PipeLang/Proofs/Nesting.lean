import PipeLang.Proofs.Request

/-!
# Nesting bounds

The interpreter evaluates to a nesting of `n` and gives up beyond.  A bound that is large enough is
as good as any larger one: what ends at one bound ends in the same way, and in the same store, at
every larger bound (`Request.run_mono`).  So nothing that is said of a request that ends depends on
the bound.
-/

namespace PipeLang

/-- All environments and stores will do, and a computation may give up where another does not. -/
def Invariant.anyMayGiveUp : Invariant where
  env _ := True
  store _ := True
  mayGiveUp := True

namespace Invariant

theorem value_anyMayGiveUp (v : Value) : anyMayGiveUp.value v :=
  value_of_forall (fun _ => trivial) v

theorem lawful_anyMayGiveUp : anyMayGiveUp.Lawful where
  unnoticed := .id
  within _ _ := trivial
  ofBinding _ _ := value_anyMayGiveUp _
  ofInline _ _ := value_anyMayGiveUp _
  bind _ _ _ := trivial
  unbind _ _ := trivial
  assignOuter _ _ _ := trivial
  addFrame _ _ := trivial
  addThunk _ _ := trivial
  addInline _ _ := trivial
  addFunction _ := trivial
  print _ := trivial

/-- A demand gives up only where the evaluation of the pending value does. -/
theorem forces_anyMayGiveUp {ev other : Evaluator} (hev : anyMayGiveUp.Agree ev other) :
    anyMayGiveUp.Forces ev other := by
  refine forces_of_inner rfl (fun _ _ _ _ _ => value_anyMayGiveUp _) fun s id e env _ _ _ => ?_
  have hagrees := hev.eval env trivial e trivial
  exact ⟨anyMayGiveUp, rfl, fun h => h, hagrees, trivial, fun _ _ _ _ =>
    ⟨trivial, fun _ _ hv => ⟨hv, trivial⟩⟩⟩

/-- An evaluator that always gives up agrees with every other one. -/
theorem agree_idle_anyMayGiveUp (ev : Evaluator) : anyMayGiveUp.Agree .idle ev where
  eval _ _ _ _ _ _ := .inl ⟨trivial, rfl⟩
  apply _ _ _ _ _ _ _ _ := .inl ⟨trivial, rfl⟩

/-- The evaluators of two levels agree where the lower one does not give up. -/
theorem agree_level_of_le {n m : Nat} (h : n ≤ m) : anyMayGiveUp.Agree (.level n) (.level m) := by
  induction n generalizing m with
  | zero => exact agree_idle_anyMayGiveUp _
  | succ n ih =>
    obtain ⟨k, rfl⟩ : ∃ k, m = k + 1 := ⟨m - 1, by omega⟩
    have hlevel := ih (Nat.le_of_succ_le_succ h)
    exact hlevel.step lawful_anyMayGiveUp.sound (forces_anyMayGiveUp hlevel)
      (lawful_anyMayGiveUp.chains hlevel)

theorem good_anyMayGiveUp (r : Request) : r.Good anyMayGiveUp :=
  r.good_of_forall (fun _ => trivial) fun _ => trivial

end Invariant

/-- A request that ends at one bound ends in the same way at every larger one. -/
theorem Request.run_mono {n m : Nat} (h : n ≤ m) (r : Request) {s : Store}
    (hr : (r.run (.level n) s).1 ≠ .outOfFuel) : r.run (.level m) s = r.run (.level n) s := by
  have hlevel := Invariant.agree_level_of_le h
  have hlawful := Invariant.lawful_anyMayGiveUp
  have hrun := hlevel.run hlawful.sound (hlawful.chains hlevel)
    (fun id _ => Invariant.forces_anyMayGiveUp hlevel id) (Invariant.good_anyMayGiveUp r)
    (hlawful.written r) s trivial
  exact (hrun.resolve_left fun hlost => hr hlost.2).1

end PipeLang
