import PipeLang.Proofs.Preservation

/-!
# Demands of deferred values

`Evaluator.force` looks at how far a deferred value is evaluated and acts accordingly; there is one
lemma for each case.  Only in one of them is anything evaluated: when the value is pending and the
limit is not reached.  `Invariant.forces_of_inner` reduces the agreement of two evaluators on
demands to that case.
-/

namespace PipeLang

/-! ### The cases of a demand -/

namespace Evaluator

variable (ev : Evaluator) {s : Store} {id : ThunkId}

/-- A value that is there is returned, and nothing is evaluated. -/
theorem force_of_forced {v : Value} (h : s.thunk? id = some (.forced v)) :
    ev.force id s = (.ok v, s) := by
  simp only [force, h]

theorem force_of_dangling (h : s.thunk? id = none) :
    ev.force id s = (.error (.internal .dangling), s) := by
  simp only [force, h]

/-- A value that needs itself is an error, and nothing is evaluated. -/
theorem force_of_evaluating (h : s.thunk? id = some .evaluating) :
    ev.force id s =
      (.error (if depthLimit ≤ s.depth then .tooDeep depthLimit else .recursive), s) := by
  simp only [force, h]
  split <;> rfl

/-- At the limit the demand of a pending value fails, and it stays pending. -/
theorem force_of_tooDeep {e : Expr} {env : Env} (h : s.thunk? id = some (.pending e env))
    (hdepth : depthLimit ≤ s.depth) :
    ev.force id s = (.error (.tooDeep depthLimit), s) := by
  simp only [force, h, if_pos hdepth]

/-- A pending value is evaluated, while it is marked. -/
theorem force_of_pending {e : Expr} {env : Env} (h : s.thunk? id = some (.pending e env))
    (hdepth : s.depth < depthLimit) :
    ev.force id s =
      match ev.eval env e (s.enter id) with
      | (.ok v, t) => (.ok v, t.leave id (.forced v))
      | (failed, t) => (failed, t.leave id (.pending e env)) := by
  simp only [force, h]
  exact if_neg (Nat.not_le.2 hdepth)

/-- A demand whose evaluation succeeds leaves the value in place of the expression. -/
theorem force_of_completed {e : Expr} {env : Env} (h : s.thunk? id = some (.pending e env))
    (hdepth : s.depth < depthLimit) {t : Store} {v : Value}
    (heval : ev.eval env e (s.enter id) = (.ok v, t)) :
    ev.force id s = (.ok v, t.leave id (.forced v)) := by
  rw [ev.force_of_pending h hdepth, heval]

/-- A demand whose evaluation fails puts the expression back, in its environment. -/
theorem force_of_failed {e : Expr} {env : Env} (h : s.thunk? id = some (.pending e env))
    (hdepth : s.depth < depthLimit) {t : Store} {r : Outcome EvalError Value}
    (heval : ev.eval env e (s.enter id) = (r, t)) (hr : ∀ v, r ≠ .ok v) :
    ev.force id s = (r, t.leave id (.pending e env)) := by
  rw [ev.force_of_pending h hdepth, heval]
  cases r with
  | ok v => exact absurd rfl (hr v)
  | error | outOfFuel => rfl

/-! ### Names and spliced values -/

theorem lookup_of_resolve {env : Env} {name : String} {b : Binding}
    (h : s.resolve env name = .ok b) : ev.lookup env name s = ev.forceBinding b s := by
  have hread : Eval.read (fun s => s.resolve env name) s = (.ok (s.resolve env name), s) := rfl
  rw [lookup, Eval.bind_of_ok hread, h]

theorem lookup_of_value {env : Env} {name : String} {v : Value}
    (h : s.resolve env name = .ok (.value v)) : ev.lookup env name s = (.ok v, s) :=
  ev.lookup_of_resolve h

/-- A name without a binding is an error that quotes the name. -/
theorem lookup_of_missing {env : Env} {name missing : String}
    (h : s.resolve env name = .error missing) :
    ev.lookup env name s = (.error (.unbound missing), s) := by
  have hread : Eval.read (fun s => s.resolve env name) s = (.ok (s.resolve env name), s) := rfl
  rw [lookup, Eval.bind_of_ok hread, h]
  rfl

/-- A qualified name is looked up in the root frame, whatever is bound on the way there. -/
theorem lookup_of_qualified {name bare : String} (h : unqualified? name = some bare) (env : Env) :
    ev.lookup env name = ev.lookupRoot env bare := by
  funext s
  have hread : Eval.read (fun s => s.binding? env.rootFrame bare) s =
      (.ok (s.binding? env.rootFrame bare), s) := rfl
  rw [lookupRoot, Eval.bind_of_ok hread]
  have hresolve : s.resolve env name =
      Store.resolve.toExcept bare (s.binding? env.rootFrame bare) := by
    simp only [Store.resolve, h]
  cases hb : s.binding? env.rootFrame bare with
  | some b => exact ev.lookup_of_resolve (by rw [hresolve, hb]; rfl)
  | none => exact ev.lookup_of_missing (by rw [hresolve, hb]; rfl)

/-- A spliced value is that value. -/
theorem eval_inline (n : Nat) {ref : InlineRef} {v : Value} (h : s.inline? ref = some v)
    (env : Env) (label : String) (at_ : Span) :
    (level (n + 1)).eval env (.inline label ref at_) s = (.ok v, s) := by
  have hread : Eval.read (fun s => s.inline? ref) s = (.ok (some v), s) := by
    rw [Eval.read_apply, h]
  show ((Eval.read fun s => s.inline? ref) >>= _) s = _
  rw [Eval.bind_of_ok hread]
  rfl

end Evaluator

/-! ### Marking a deferred value -/

namespace Store

@[simp] theorem depth_enter (s : Store) (id : ThunkId) : (s.enter id).depth = s.depth + 1 := rfl

@[simp] theorem depth_leave (s : Store) (id : ThunkId) (t : Thunk) :
    (s.leave id t).depth = s.depth - 1 := rfl

theorem thunk?_enter_self {s : Store} {id : ThunkId} {t : Thunk} (h : s.thunk? id = some t) :
    (s.enter id).thunk? id = some .evaluating :=
  thunk?_setThunk_self (lt_size_of_thunk? h) _

theorem thunk?_enter_of_ne {id other : ThunkId} (hne : other ≠ id) (s : Store) :
    (s.enter id).thunk? other = s.thunk? other :=
  thunk?_setThunk_of_ne hne _ _

/-- What is left is in the state that it is given. -/
theorem thunk?_leave_self {s : Store} {id : ThunkId} {old : Thunk} (h : s.thunk? id = some old)
    (t : Thunk) : (s.leave id t).thunk? id = some t :=
  thunk?_setThunk_self (lt_size_of_thunk? h) _

theorem thunk?_leave_of_ne {id other : ThunkId} (hne : other ≠ id) (s : Store) (t : Thunk) :
    (s.leave id t).thunk? other = s.thunk? other :=
  thunk?_setThunk_of_ne hne _ _

end Store

/-! ### Demands under an invariant -/

namespace Invariant

variable {inv : Invariant} {ev other : Evaluator}

/-- A demand that evaluates nothing agrees with any other, so only those are to be compared that
evaluate something: the demands of pending values within the limit. -/
theorem agrees_force_of_pending {id : ThunkId} (hview : Store.Unnoticed inv.view)
    (hforced : ∀ s v, inv.store s → s.thunk? id = some (.forced v) → inv.value v)
    (hpending : ∀ s e env, inv.store s → s.thunk? id = some (.pending e env) →
      s.depth < depthLimit → inv.AgreesAt inv.value (ev.force id) (other.force id) s) :
    inv.Agrees inv.value (ev.force id) (other.force id) := by
  -- by how far the value is evaluated; nothing of that can be seen to differ through the view
  intro s hs
  have hseen : (inv.view s).thunk? id = s.thunk? id := hview.thunk? s id
  rcases hthunk : s.thunk? id with _ | ⟨e, env⟩ | _ | v
  case none =>
    exact .of_eq (ev.force_of_dangling hthunk) (other.force_of_dangling (hseen.trans hthunk)) hs
      (by rintro v ⟨⟩)
  case some.evaluating =>
    refine .of_eq (ev.force_of_evaluating hthunk) ?_ hs (by rintro v ⟨⟩)
    rw [other.force_of_evaluating (hseen.trans hthunk), hview.depth]
  case some.forced =>
    refine .of_eq (ev.force_of_forced hthunk) (other.force_of_forced (hseen.trans hthunk)) hs ?_
    rintro w hw
    cases hw
    exact hforced s v hs hthunk
  case some.pending =>
    rcases Nat.lt_or_ge s.depth depthLimit with hdepth | hdepth
    · exact hpending s e env hs hthunk hdepth
    · have hdeep : depthLimit ≤ (inv.view s).depth := by
        rw [hview.depth]
        exact hdepth
      exact .of_eq (ev.force_of_tooDeep hthunk hdepth)
        (other.force_of_tooDeep (hseen.trans hthunk) hdeep) hs (by rintro v ⟨⟩)

/-- Two evaluators agree on demands if they agree on the evaluation of pending values, under an
invariant that holds while the value is marked and from which the other one can be restored.  Both
invariants are for runs in one and the same store. -/
theorem forces_of_inner (hview : inv.view = id)
    (hforced : ∀ s id v, inv.store s → s.thunk? id = some (.forced v) → inv.value v)
    (hpending : ∀ s id e env, inv.store s → s.thunk? id = some (.pending e env) →
      s.depth < depthLimit →
        ∃ inner : Invariant, inner.view = inv.view ∧ (inner.mayGiveUp → inv.mayGiveUp) ∧
          inner.Agrees inner.value (ev.eval env e) (other.eval env e) ∧
          inner.store (s.enter id) ∧
          ∀ r t, ev.eval env e (s.enter id) = (r, t) → inner.store t →
            inv.store (t.leave id (.pending e env)) ∧
            ∀ v, r = .ok v → inner.value v → inv.value v ∧ inv.store (t.leave id (.forced v))) :
    inv.Forces ev other := by
  intro key
  have hid : ∀ s, inv.view s = s := congrFun hview
  refine agrees_force_of_pending (hview ▸ Store.Unnoticed.id) (fun s v => hforced s key v) ?_
  intro s e env hs hthunk hdepth
  obtain ⟨inner, hsame, hmay, hagrees, hentered, hleft⟩ := hpending s key e env hs hthunk hdepth
  rcases heval : ev.eval env e (s.enter key) with ⟨r, t⟩
  rcases hagrees (s.enter key) hentered with ⟨hlost, hout⟩ | ⟨heq, hstore, hgood⟩
  · rw [heval] at hout
    obtain rfl : r = .outOfFuel := hout
    refine .inl ⟨hmay hlost, ?_⟩
    rw [ev.force_of_failed hthunk hdepth heval (by rintro v ⟨⟩)]
  -- the evaluations are the same, and the mark is taken off again however they end
  · rw [hsame, hid, hid, heval] at heq
    rw [heval] at hstore hgood
    obtain ⟨hrestored, hkept⟩ := hleft r t heval hstore
    by_cases hr : ∃ v, r = .ok v
    · obtain ⟨v, rfl⟩ := hr
      obtain ⟨hv, hstored⟩ := hkept v rfl (hgood v rfl)
      refine .of_eq (ev.force_of_completed hthunk hdepth heval) ?_ hstored
        (by rintro w ⟨⟩; exact hv)
      rw [hid, hid]
      exact other.force_of_completed hthunk hdepth heq
    · have hr : ∀ v, r ≠ .ok v := fun v hv => hr ⟨v, hv⟩
      refine .of_eq (ev.force_of_failed hthunk hdepth heval hr) ?_ hrestored
        fun v hv => absurd hv (hr v)
      rw [hid, hid]
      exact other.force_of_failed hthunk hdepth heq hr

end Invariant

end PipeLang
