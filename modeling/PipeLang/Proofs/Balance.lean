import PipeLang.Proofs.History

/-!
# Balanced demands

The nesting depth in the store counts the deferred values that are being evaluated.  Each demand
counts itself in and out, so no request, however it ends, leaves the depth changed or a deferred
value half evaluated.  In a run that starts with nothing under evaluation the depth is therefore
right whenever `eval` is entered, and never above the limit (`demands_are_balanced`).
-/

namespace PipeLang

/-- Whether the evaluation has begun and not ended. -/
def Thunk.isEvaluating : Thunk → Bool
  | evaluating => true
  | pending .. | forced _ => false

namespace Store

/-- How many deferred values are being evaluated. -/
def evaluatingCount (s : Store) : Nat := s.thunks.toList.countP Thunk.isEvaluating

/-- The depth is the number of deferred values that are being evaluated, and within the limit. -/
def Counted (s : Store) : Prop := s.depth = s.evaluatingCount ∧ s.depth ≤ depthLimit

/-! ### Counting -/

/-- Two arrays of the same hits at the same places have equally many. -/
theorem countP_eq_of_getElem? {α : Type} {p : α → Bool} {xs ys : List α}
    (h : ∀ i : Nat, xs[i]?.any p = ys[i]?.any p) : xs.countP p = ys.countP p := by
  induction xs generalizing ys with
  | nil =>
    -- `ys` may be longer, but nothing in it counts
    symm
    rw [List.countP_nil, List.countP_eq_zero]
    intro y hy hp
    obtain ⟨i, hi⟩ := List.mem_iff_getElem?.1 hy
    simpa [hi, hp] using h i
  | cons x xs ih =>
    cases ys with
    | nil =>
      rw [List.countP_nil, List.countP_eq_zero]
      intro y hy hp
      obtain ⟨i, hi⟩ := List.mem_iff_getElem?.1 hy
      simpa [hi, hp] using h i
    | cons y ys =>
      have hhead : p x = p y := by simpa using h 0
      have htail : xs.countP p = ys.countP p := ih fun i => by simpa using h (i + 1)
      rw [List.countP_cons, List.countP_cons, hhead, htail]

theorem any_isEvaluating_iff {x : Option Thunk} :
    x.any Thunk.isEvaluating = true ↔ x = some .evaluating := by
  rcases x with _ | ⟨_, _⟩ | _ | _ <;> simp [Thunk.isEvaluating]

variable {s t : Store} {id : ThunkId}

/-- An evaluation leaves as many values marked as it finds. -/
theorem Advances.evaluatingCount_eq (h : s.Advances t) : t.evaluatingCount = s.evaluatingCount := by
  refine countP_eq_of_getElem? fun i => Bool.eq_iff_iff.2 ?_
  rw [any_isEvaluating_iff, any_isEvaluating_iff, Array.getElem?_toList, Array.getElem?_toList]
  exact h.evaluating_iff ⟨i⟩

/-- A pending value that is entered is one more that is marked. -/
theorem evaluatingCount_enter {e : Expr} {env : Env} (h : s.thunk? id = some (.pending e env)) :
    (s.enter id).evaluatingCount = s.evaluatingCount + 1 := by
  obtain ⟨hlt, hget⟩ := Array.getElem?_eq_some_iff.1 h
  have hlt : id.index < s.thunks.toList.length := by simpa using hlt
  have hset : (s.enter id).thunks.toList = s.thunks.toList.set id.index .evaluating :=
    Array.toList_setIfInBounds
  have hpending : s.thunks.toList[id.index] = .pending e env := hget
  unfold evaluatingCount
  rw [hset, List.countP_set hlt, hpending]
  rfl

theorem Counted.of_advances (hs : s.Counted) (h : s.Advances t) : t.Counted := by
  unfold Counted
  rw [h.depth, h.evaluatingCount_eq]
  exact hs

/-- Within the limit the count may go on by one, with the depth. -/
theorem Counted.enter (hs : s.Counted) {e : Expr} {env : Env}
    (hpending : s.thunk? id = some (.pending e env)) (hdepth : s.depth < depthLimit) :
    (s.enter id).Counted := by
  unfold Counted
  rw [depth_enter, evaluatingCount_enter hpending, hs.1]
  exact ⟨rfl, hs.1 ▸ hdepth⟩

/-- Nothing is under evaluation. -/
theorem counted_of_none_evaluating (hdepth : s.depth = 0)
    (h : ∀ id, s.thunk? id ≠ some .evaluating) : s.Counted := by
  have hzero : s.evaluatingCount = 0 := by
    refine List.countP_eq_zero.2 fun x hx hevaluating => ?_
    obtain ⟨i, hi⟩ := List.mem_iff_getElem?.1 hx
    refine h ⟨i⟩ ?_
    rw [Array.getElem?_toList] at hi
    cases x with
    | evaluating => exact hi
    | pending | forced => cases hevaluating
  rw [Counted, hdepth, hzero]
  exact ⟨rfl, Nat.zero_le _⟩

/-- A run advances the store, as each of its requests does. -/
theorem advances_runAll (n : Nat) (requests : List Request) (s : Store) :
    s.Advances (Request.runAll (.level n) requests s) := by
  induction requests generalizing s with
  | nil => exact Advances.refl s
  | cons r rest ih => exact (advances_run n r s).trans (ih _)

end Store

/-- From a store with the right depth, the depth is right at every entry. -/
theorem everyEntry_counted (n : Nat) (r : Request) {s : Store} (hs : s.Counted) :
    EveryEntry (fun _ _ t => t.Counted) n r s :=
  everyEntry_of_advances Store.Counted.of_advances (fun h => h.enter) n r hs

/-- Every request leaves the depth as it was, and the same deferred values under evaluation; and in
a run that starts with none, the depth is their number at every entry, at most the limit. -/
theorem demands_are_balanced (n : Nat) :
    (∀ (r : Request) (s : Store),
      (r.run (.level n) s).2.depth = s.depth ∧
        ∀ id, (r.run (.level n) s).2.thunk? id = some .evaluating ↔
          s.thunk? id = some .evaluating) ∧
      ∀ (s : Store) (before : List Request) (r : Request),
        s.depth = 0 → (∀ id, s.thunk? id ≠ some .evaluating) →
          EveryEntry (fun _ _ t => t.depth = t.evaluatingCount ∧ t.depth ≤ depthLimit) n r
            (Request.runAll (.level n) before s) := by
  refine ⟨fun r s => ?_, fun s before r hdepth hnone => ?_⟩
  · have hadvances := Store.advances_run n r s
    exact ⟨hadvances.depth, hadvances.evaluating_iff⟩
  · have hstart := Store.counted_of_none_evaluating hdepth hnone
    exact everyEntry_counted n r (hstart.of_advances (Store.advances_runAll n before s))

/-- A closure that needs a deferred value: the depth is right at each entry of its call, and after
it, though the value is missing. -/
theorem balanced_call :
    let env : Env := ⟨⟨0⟩, [], .auto⟩
    let start : Store := { Store.empty with
      frames := #[[("x", .deferred ⟨0⟩)]]
      thunks := #[.pending (.sym "y" .nowhere) env] }
    let f : Value := .closure ⟨⟨0⟩, ["z"], .sym "x" .nowhere, env⟩
    let r : Request := .apply env f [.null]
    (r.run (.level 3) start).1 = .error (.unbound "y") ∧
    (r.run (.level 3) start).2.depth = 0 ∧
    (∀ id, (r.run (.level 3) start).2.thunk? id ≠ some .evaluating) ∧
    EveryEntry (fun _ _ t => t.depth = t.evaluatingCount ∧ t.depth ≤ depthLimit) 3 r
      (Request.runAll (.level 3) [.force ⟨0⟩] start) := by
  intro env start f r
  obtain ⟨hleft, hentry⟩ := demands_are_balanced 3
  have hnone : ∀ id, start.thunk? id ≠ some .evaluating := by
    rintro ⟨_ | i⟩ h
    · cases h
    · simp [start, Store.thunk?] at h
  obtain ⟨hdepth, hmarked⟩ := hleft r start
  exact ⟨rfl, hdepth, fun id h => hnone id ((hmarked id).1 h),
    hentry start [.force ⟨0⟩] r rfl hnone⟩

end PipeLang
