import PipeLang.Proofs.Request

/-!
# The history of deferred values

`Store.Advances s t` says what an evaluation that takes the store `s` to `t` can do to deferred
values.  One that has its value keeps it; one that is being evaluated is still being evaluated; one
that is pending stays so, or gets its value; and none that is made on the way is left half
evaluated.  The nesting depth is the same at the end as at the start.

Every request takes a store to one that it advances to (`Store.advances_run`), in whatever way the
request ends.  So what advances keep, and marks too, holds whenever `eval` is entered
(`everyEntry_of_advances`).
-/

namespace PipeLang

namespace Store

/-- What has its value keeps it. -/
def Keeps (s t : Store) : Prop :=
  ∀ id v, s.thunk? id = some (.forced v) → t.thunk? id = some (.forced v)

/-- What an evaluation does to deferred values. -/
structure Advances (s t : Store) : Prop where
  depth : t.depth = s.depth
  forced : s.Keeps t
  evaluating : ∀ {id}, s.thunk? id = some .evaluating → t.thunk? id = some .evaluating
  pending : ∀ {id e env}, s.thunk? id = some (.pending e env) →
    t.thunk? id = some (.pending e env) ∨ ∃ v, t.thunk? id = some (.forced v)
  fresh : ∀ {id}, s.thunk? id = none → t.thunk? id ≠ some .evaluating

/-! ### Keeping values -/

variable {s t u : Store} {id : ThunkId}

theorem Keeps.refl (s : Store) : s.Keeps s := fun _ _ h => h

theorem Keeps.trans (hst : s.Keeps t) (htu : t.Keeps u) : s.Keeps u :=
  fun id v h => htu id v (hst id v h)

/-- To mark a value that is not there yet loses none. -/
theorem keeps_enter (h : ∀ v, s.thunk? id ≠ some (.forced v)) : s.Keeps (s.enter id) := by
  intro other v hother
  have hne : other ≠ id := by
    rintro rfl
    exact h v hother
  rw [thunk?_enter_of_ne hne]
  exact hother

/-- To give a final state to a value that is not there yet loses none. -/
theorem keeps_leave (h : ∀ v, s.thunk? id ≠ some (.forced v)) (x : Thunk) :
    s.Keeps (s.leave id x) := by
  intro other v hother
  have hne : other ≠ id := by
    rintro rfl
    exact h v hother
  rw [thunk?_leave_of_ne hne]
  exact hother

/-! ### Advancing -/

namespace Advances

theorem refl (s : Store) : s.Advances s where
  depth := rfl
  forced := Keeps.refl s
  evaluating h := h
  pending h := .inl h
  fresh h := by simp [h]

/-- Without a write to a deferred value nothing happens to them. -/
theorem of_thunks_eq (hdepth : t.depth = s.depth) (hthunks : t.thunks = s.thunks) :
    s.Advances t := by
  have hthunk : ∀ id, t.thunk? id = s.thunk? id := fun id => by rw [thunk?, hthunks, thunk?]
  constructor
  · exact hdepth
  · exact fun id v h => (hthunk id).trans h
  · exact fun h => (hthunk _).trans h
  · exact fun h => .inl ((hthunk _).trans h)
  · exact fun h => by simp [hthunk, h]

/-- A new deferred value is pending, and the others are as they were. -/
theorem addThunk (s : Store) (e : Expr) (env : Env) : s.Advances (s.addThunk e env) := by
  constructor
  · rfl
  · exact fun id v h => thunk?_addThunk_of_some h e env
  · exact fun h => thunk?_addThunk_of_some h e env
  · exact fun h => .inl (thunk?_addThunk_of_some h e env)
  · intro id h
    rw [thunk?_addThunk]
    split
    · simp
    · simp [h]

/-- One advance after the other is an advance. -/
theorem trans (hst : s.Advances t) (htu : t.Advances u) : s.Advances u where
  depth := htu.depth.trans hst.depth
  forced := hst.forced.trans htu.forced
  evaluating h := htu.evaluating (hst.evaluating h)
  pending {id e env} h := by
    rcases hst.pending h with hpending | ⟨v, hforced⟩
    · exact htu.pending hpending
    · exact .inr ⟨v, htu.forced id v hforced⟩
  fresh {id} h := by
    -- made in the first part, the second part leaves it as evaluated as it finds it
    rcases hthunk : t.thunk? id with _ | ⟨e, env⟩ | _ | v
    · exact htu.fresh hthunk
    · rcases htu.pending hthunk with hpending | ⟨v, hforced⟩
      · simp [hpending]
      · simp [hforced]
    · exact absurd hthunk (hst.fresh h)
    · simp [htu.forced id v hthunk]

/-- What is not there at the end was not there at the start. -/
theorem thunk?_eq_none (h : s.Advances t) (ht : t.thunk? id = none) : s.thunk? id = none := by
  rcases hthunk : s.thunk? id with _ | ⟨e, env⟩ | _ | v
  · rfl
  · rcases h.pending hthunk with hpending | ⟨v, hforced⟩
    · simp [hpending] at ht
    · simp [hforced] at ht
  · simp [h.evaluating hthunk] at ht
  · simp [h.forced id v hthunk] at ht

/-- The values that are being evaluated are the same before and after. -/
theorem evaluating_iff (h : s.Advances t) (id : ThunkId) :
    t.thunk? id = some .evaluating ↔ s.thunk? id = some .evaluating := by
  refine ⟨fun ht => ?_, h.evaluating⟩
  rcases hthunk : s.thunk? id with _ | ⟨e, env⟩ | _ | v
  · exact absurd ht (h.fresh hthunk)
  · rcases h.pending hthunk with hpending | ⟨v, hforced⟩
    · simp [hpending] at ht
    · simp [hforced] at ht
  · rfl
  · simp [h.forced id v hthunk] at ht

/-! ### The demand of a pending value -/

variable {e : Expr} {env : Env}

/-- A marked value that gets a final state, seen from before it was marked. -/
theorem leave (hpending : s.thunk? id = some (.pending e env)) (h : (s.enter id).Advances t)
    {x : Thunk} (hx : x = .pending e env ∨ ∃ v, x = .forced v) : s.Advances (t.leave id x) := by
  have hmarked : t.thunk? id = some .evaluating := h.evaluating (thunk?_enter_self hpending)
  have hself : (t.leave id x).thunk? id = some x := thunk?_leave_self hmarked x
  have hentered : s.Keeps (s.enter id) := keeps_enter (by simp [hpending])
  have hleft : t.Keeps (t.leave id x) := keeps_leave (by simp [hmarked]) x
  -- only the state of `id` differs from `s` at the start and from `t` at the end
  have hother : ∀ {other}, other ≠ id → (t.leave id x).thunk? other = t.thunk? other :=
    fun hne => thunk?_leave_of_ne hne t x
  have hbefore : ∀ {other}, other ≠ id → (s.enter id).thunk? other = s.thunk? other :=
    fun hne => thunk?_enter_of_ne hne s
  constructor
  case depth => rw [depth_leave, h.depth, depth_enter, Nat.add_sub_cancel]
  case forced => exact (hentered.trans h.forced).trans hleft
  case evaluating =>
    intro other hthunk
    have hne : other ≠ id := by
      rintro rfl
      simp [hpending] at hthunk
    rw [hother hne]
    exact h.evaluating ((hbefore hne).trans hthunk)
  case pending =>
    intro other e' env' hthunk
    by_cases hne : other = id
    · subst hne
      obtain ⟨rfl, rfl⟩ : e = e' ∧ env = env' := by simpa [hpending] using hthunk
      rcases hx with rfl | ⟨v, rfl⟩
      · exact .inl hself
      · exact .inr ⟨v, hself⟩
    · rw [hother hne]
      exact h.pending ((hbefore hne).trans hthunk)
  case fresh =>
    intro other hthunk
    have hne : other ≠ id := by
      rintro rfl
      simp [hpending] at hthunk
    rw [hother hne]
    exact h.fresh ((hbefore hne).trans hthunk)

end Advances

end Store

/-! ### Advancing as an invariant -/

/-- The store has advanced from a given one. -/
def Invariant.since (s : Store) : Invariant where
  env _ := True
  store := s.Advances
  mayGiveUp := False

namespace Invariant

variable {s : Store}

theorem value_since (v : Value) : (since s).value v := value_of_forall (fun _ => trivial) v

theorem lawful_since (s : Store) : (since s).Lawful where
  unnoticed := .id
  within _ _ := trivial
  ofBinding _ _ := value_since _
  ofInline _ _ := value_since _
  bind hs _ _ := hs.trans (.of_thunks_eq rfl rfl)
  unbind hs _ := hs.trans (.of_thunks_eq rfl rfl)
  assignOuter hs _ _ := hs.trans (.of_thunks_eq rfl rfl)
  addFrame hs _ := hs.trans (.of_thunks_eq rfl rfl)
  addThunk hs _ := hs.trans (.addThunk _ _ _)
  addInline hs _ := hs.trans (.of_thunks_eq rfl rfl)
  addFunction hs := hs.trans (.of_thunks_eq rfl rfl)
  print hs := hs.trans (.of_thunks_eq rfl rfl)

/-- Demands advance the store if the evaluations of pending values do so, from the store in which
the value is marked. -/
theorem forces_since {n : Nat} {other : Evaluator}
    (h : ∀ t id e env, s.Advances t → t.thunk? id = some (.pending e env) →
      t.depth < depthLimit → (since (t.enter id)).Agree (.level n) other) :
    (since s).Forces (.level n) other := by
  refine forces_of_inner rfl (fun _ _ _ _ _ => value_since _) ?_
  intro t id e env hst hpending hdepth
  have hagree := (h t id e env hst hpending hdepth).eval env trivial e trivial
  refine ⟨since (t.enter id), rfl, False.elim, hagree, Store.Advances.refl _, ?_⟩
  intro r u _ hadvances
  refine ⟨hst.trans (hadvances.leave hpending (.inl rfl)), fun v _ _ => ⟨value_since v, ?_⟩⟩
  exact hst.trans (hadvances.leave hpending (.inr ⟨v, rfl⟩))

/-- Every evaluation advances the store, from wherever one begins to look. -/
theorem kept_since : Kept since :=
  .of_lawful (fun _ => rfl) lawful_since fun _ _ h _ =>
    forces_since fun t id _ _ _ _ _ => h (t.enter id)

theorem good_since (r : Request) : r.Good (since s) :=
  r.good_of_forall (fun _ => trivial) fun _ => trivial

end Invariant

namespace Store

/-- Every request advances the store, in whatever way it ends. -/
theorem advances_run (n : Nat) (r : Request) (s : Store) :
    s.Advances (r.run (.level n) s).2 :=
  (Invariant.kept_since.store_of_run s (fun h => h) (Invariant.good_since r)
    ((Invariant.lawful_since s).written r) (Advances.refl s)).1

/-- So does every computation that keeps all these invariants. -/
theorem advances_of_agrees {α : Type} {good : α → Prop} {x y : Eval α} {s : Store}
    (h : (Invariant.since s).Agrees good x y) : s.Advances (x s).2 :=
  (h.of_not_mayGiveUp (fun h => h) (Advances.refl s)).2.1

theorem advances_evalLazy (n : Nat) (env : Env) (es : List Expr) (s : Store) :
    s.Advances ((Evaluator.level n).evalLazy env es s).2 :=
  advances_of_agrees ((Invariant.kept_since.agree n s).evalLazy
    (Invariant.lawful_since s).sound trivial fun _ _ => trivial)

/-- The steps of a chain advance the store too, however far they get. -/
theorem advances_evalSteps (n : Nat) (env : Env) (es : List Expr) (s : Store) :
    s.Advances ((Evaluator.level n).evalSteps env es s).2 :=
  advances_of_agrees ((Invariant.kept_since.agree n s).evalSteps
    (Invariant.lawful_since s) trivial es)

theorem advances_evalEager (n : Nat) (env : Env) (es : List Expr) (s : Store) :
    s.Advances ((Evaluator.level n).evalEager env es s).2 :=
  advances_of_agrees ((Invariant.lawful_since s).chains (Invariant.kept_since.agree n s) env
    trivial es fun _ _ => trivial)

end Store

/-- What advances and marks keep holds at every entry. -/
theorem everyEntry_of_advances {p : Store → Prop}
    (hadvances : ∀ {s t}, p s → s.Advances t → p t)
    (henter : ∀ {s id e env}, p s → s.thunk? id = some (.pending e env) → s.depth < depthLimit →
      p (s.enter id)) (n : Nat) (r : Request) {s : Store} (hs : p s) :
    EveryEntry (fun _ _ t => p t) n r s := by
  -- to mark a deferred value is to start again, so there is one invariant for each such start
  let inv : { s : Store // p s } → Invariant := fun i => .since i.1
  have hforce : ∀ n other, (∀ i, (inv i).Agree (.level n) other) →
      ∀ i, (inv i).Forces (.level n) other := by
    intro n other hagree i
    refine Invariant.forces_since fun t id e env ht hpending hdepth => ?_
    exact hagree ⟨t.enter id, henter (hadvances i.2 ht) hpending hdepth⟩
  exact Invariant.everyEntry_of_store inv (fun _ => rfl) (fun i => Invariant.lawful_since i.1)
    hforce ⟨s, hs⟩ (fun h => h) (fun i _ _ _ _ ht => hadvances i.2 ht) (Invariant.good_since r)
    (Store.Advances.refl s)

end PipeLang
