import PipeLang.Proofs.Record

/-!
# Deferred values are evaluated once

A deferred value that has its value gives it from then on, and nothing is evaluated for it; while
it is being evaluated a demand of it fails, and again nothing is evaluated.  A demand that fails
leaves it as it was.

Its expression is evaluated with success at most once in a whole run, within one request as well as
over many.  This is said of the run that takes notes (`Request.record`, `Request.recordAll`): a note
is left by each successful evaluation that answers a demand of the deferred value, and at the end
there is one if the value is there, and none otherwise (`deferred_values_are_memoized`).
-/

namespace PipeLang

namespace Store

variable {s : Store} {id : ThunkId}

/-- A demand leaves the deferred value with its value, or as it was if it ends without one. -/
theorem thunk?_force (n : Nat) (id : ThunkId) (s : Store) :
    ((Evaluator.level n).force id s).2.thunk? id =
      match ((Evaluator.level n).force id s).1 with
      | .ok v => some (.forced v)
      | .error _ | .outOfFuel => s.thunk? id := by
  rcases hthunk : s.thunk? id with _ | ⟨e, env⟩ | _ | v
  case none =>
    rw [Evaluator.force_of_dangling _ hthunk]
    exact hthunk
  case some.evaluating =>
    rw [Evaluator.force_of_evaluating _ hthunk]
    exact hthunk
  case some.forced =>
    rw [Evaluator.force_of_forced _ hthunk]
    exact hthunk
  case some.pending =>
    rcases Nat.lt_or_ge s.depth depthLimit with hdepth | hdepth
    · -- the evaluation leaves the mark, and the final state is put in its place
      have hmarked : ((Evaluator.level n).eval env e (s.enter id)).2.thunk? id =
          some .evaluating :=
        (advances_run n (.eval env e) (s.enter id)).evaluating (thunk?_enter_self hthunk)
      rw [Evaluator.force_of_pending _ hthunk hdepth]
      rcases hrun : (Evaluator.level n).eval env e (s.enter id) with ⟨outcome, t⟩
      rw [hrun] at hmarked
      cases outcome with
      | ok | error | outOfFuel => exact thunk?_leave_self hmarked _
    · rw [Evaluator.force_of_tooDeep _ hthunk hdepth]
      exact hthunk

/-- A demand that fails leaves what was demanded as it was. -/
theorem thunk?_force_of_failed {n : Nat} (h : ∀ v, ((Evaluator.level n).force id s).1 ≠ .ok v) :
    ((Evaluator.level n).force id s).2.thunk? id = s.thunk? id := by
  rw [thunk?_force]
  split
  · next v hv => exact absurd hv (h v)
  · rfl
  · rfl

theorem thunk?_force_of_ok {n : Nat} {t : Store} {v : Value}
    (h : (Evaluator.level n).force id s = (.ok v, t)) : t.thunk? id = some (.forced v) := by
  have hforce := thunk?_force n id s
  rw [h] at hforce
  exact hforce

end Store

/-- A value that is there at the start of a request is there at every entry on the way. -/
theorem everyEntry_forced (n : Nat) (r : Request) {s : Store} {id : ThunkId} {v : Value}
    (h : s.thunk? id = some (.forced v)) :
    EveryEntry (fun _ _ t => t.thunk? id = some (.forced v)) n r s := by
  refine everyEntry_of_advances (p := fun t => t.thunk? id = some (.forced v))
    (fun ht hadvances => hadvances.forced id v ht) ?_ n r h
  intro t other e env ht hpending _
  exact Store.keeps_enter (by simp [hpending]) id v ht

/-- In every run, each request keeps the values that are there, at every entry on the way too, and
they are there at any depth without an evaluation; what is under evaluation stays so, and a demand
of it fails without one.  A pending value stays pending or gets its value, and its demands come to
one successful evaluation in the second case, of its own expression in its own environment, and to
none in the first.  A failed demand changes nothing about what was demanded.

Over the whole run, the demands of a deferred value come to one successful evaluation if it gets its
value on the way, and to none otherwise; it may be there at the start, pending or with its value, or
be made on the way. -/
theorem deferred_values_are_memoized (n : Nat) (start : Store) (before : List Request)
    (r : Request) :
    let s := Request.runAll (.level n) before start
    let t := (r.run (.level n) s).2
    (∀ id v, s.thunk? id = some (.forced v) →
      t.thunk? id = some (.forced v) ∧
        (∀ (ev : Evaluator) d, ev.force id { t with depth := d } = (.ok v, { t with depth := d })) ∧
          EveryEntry (fun _ _ u => u.thunk? id = some (.forced v)) n r s) ∧
    (∀ id, s.thunk? id = some .evaluating →
      t.thunk? id = some .evaluating ∧
        ∀ (ev : Evaluator) d, ∃ e, ev.force id { t with depth := d } =
          (.error e, { t with depth := d })) ∧
    (∀ id e env, s.thunk? id = some (.pending e env) →
      (t.thunk? id = some (.pending e env) ∨ ∃ v, t.thunk? id = some (.forced v)) ∧
        ∀ note, r.record id note n s =
          ((r.run (.level n) s).1, t.note (t.noteOf id (note env e)))) ∧
    (∀ m u id, (∀ v, ((Evaluator.level m).force id u).1 ≠ .ok v) →
      ((Evaluator.level m).force id u).2.thunk? id = u.thunk? id) ∧
    (∀ id v, start.thunk? id = some (.forced v) → ∀ note,
      r.record id note n (Request.recordAll id note n before start) = r.run (.level n) s) ∧
    (∀ id e env, start.thunk? id = some (.pending e env) → ∀ note,
      r.record id note n (Request.recordAll id note n before start) =
        ((r.run (.level n) s).1, t.note (t.noteOf id (note env e)))) ∧
    ∀ id, (∀ v, start.thunk? id ≠ some (.forced v)) → ∀ label,
      r.record id (fun _ _ => label) n (Request.recordAll id (fun _ _ => label) n before start) =
        ((r.run (.level n) s).1, t.note (t.noteOf id label)) := by
  intro s t
  -- what the request does to the states of deferred values is known from the history, how often it
  -- evaluates them from the record
  have hadvances : s.Advances t := Store.advances_run n r s
  refine ⟨fun id v hs => ?_, fun id hs => ?_, fun id e env hs => ?_, fun m u id hfailed => ?_,
    fun id v hstart note => ?_, fun id e env hstart note => ?_, fun id hstart label => ?_⟩
  · have ht := hadvances.forced id v hs
    exact ⟨ht, fun ev d => ev.force_of_forced (s := { t with depth := d }) ht,
      everyEntry_forced n r hs⟩
  · have ht := hadvances.evaluating hs
    exact ⟨ht, fun ev d => ⟨_, ev.force_of_evaluating (s := { t with depth := d }) ht⟩⟩
  · exact ⟨hadvances.pending hs, r.record_of_pending n [] hs⟩
  · exact Store.thunk?_force_of_failed hfailed
  · exact r.record_of_forced n before hstart
  · exact r.record_of_pending n before hstart note
  · exact r.record_of_ne_forced n before (fun _ _ _ => rfl) hstart

/-- Three deferred values: a literal, an inline node without a value, and one under evaluation.  The
first is demanded twice and evaluated once. -/
theorem memoized_literal :
    let env : Env := ⟨⟨0⟩, [], .auto⟩
    let start : Store := { Store.empty with thunks := #[.pending (.lit (.int 7) .nowhere) env,
      .pending (.inline "gone" ⟨0⟩ .nowhere) env, .evaluating] }
    let first : Request := .force ⟨0⟩
    let done := (first.run (.level 1) start).2
    let once : Env → Expr → Value → String := fun _ _ _ => "|"
    (∀ (ev : Evaluator) d, ev.force ⟨0⟩ { done with depth := d } =
      (.ok (.int 7), { done with depth := d })) ∧
    (∀ (ev : Evaluator) d, ∃ e, ev.force ⟨2⟩ { done with depth := d } =
      (.error e, { done with depth := d })) ∧
    first.record ⟨0⟩ once 1 start = (.ok (.int 7), done.note "|") ∧
    first.record ⟨0⟩ once 1 (Request.recordAll ⟨0⟩ once 1 [first] start) =
      (.ok (.int 7), done.note "|") ∧
    first.record ⟨0⟩ once 1 (Request.recordAll ⟨0⟩ once 1 [first] done) = (.ok (.int 7), done) ∧
    (Request.force ⟨1⟩).record ⟨1⟩ once 1 (Request.recordAll ⟨1⟩ once 1 [first] start) =
      (.error (.internal (.foreignInline "gone")), done) ∧
    ((Evaluator.level 1).force ⟨1⟩ done).2.thunk? ⟨1⟩ = done.thunk? ⟨1⟩ := by
  intro env start first done once
  -- the first demand of the literal, the second one, and one of the node that fails
  obtain ⟨-, -, hpending, -, -, -, -⟩ := deferred_values_are_memoized 1 start [] first
  obtain ⟨hforced, -, -, -, -, hrun, -⟩ := deferred_values_are_memoized 1 start [first] first
  obtain ⟨-, hevaluating, -, hfailed, -, -, hnone⟩ :=
    deferred_values_are_memoized 1 start [first] (.force ⟨1⟩)
  obtain ⟨-, -, -, -, hlater, -, -⟩ := deferred_values_are_memoized 1 done [first] first
  refine ⟨(hforced ⟨0⟩ (.int 7) rfl).2.1, (hevaluating ⟨2⟩ rfl).2, ?_, ?_, ?_, ?_, ?_⟩
  · exact (hpending ⟨0⟩ _ _ rfl).2 once
  · exact hrun ⟨0⟩ _ _ rfl once
  · exact hlater ⟨0⟩ (.int 7) rfl once
  · exact hnone ⟨1⟩ (by rintro v ⟨⟩) fun _ => "|"
  · exact hfailed 1 done ⟨1⟩ (by rintro v ⟨⟩)

end PipeLang
