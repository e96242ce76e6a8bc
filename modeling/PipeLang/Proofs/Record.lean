import PipeLang.Proofs.Balance

/-!
# Counting the evaluations of a deferred value

A store shows how far a deferred value is evaluated, but not how often its expression was evaluated
to get there.  So each evaluation is written down when it succeeds.  `Evaluator.noting` puts a note
in front of all that has been printed; no evaluation reads the output, and printing goes on at the
other end.  `Evaluator.recorded` is the interpreter with such notes wherever a given deferred value
is demanded: to evaluate a name is to demand what it is bound to, and whatever a demand evaluates,
once or many times, it evaluates through the evaluator that takes notes.

A run with notes is the run without them and comes to one note if the deferred value has got its
value on the way, and to none otherwise (`Request.record_recordAll`).  The invariant for it,
`Invariant.recording`, compares each store with the same store after the note that is due in it
(`Store.noteOf`): none while the value is not there, from then on the one of its evaluation.
-/

namespace PipeLang

/-! ### Taking notes -/

namespace Store

/-- Put a note in front of all that has been printed. -/
def note (s : Store) (text : String) : Store := { s with printed := text ++ s.printed }

/-- Whether the expression is a name for this deferred value.  To evaluate such a name is to demand
the value, and nothing else. -/
def isDemand (s : Store) (id : ThunkId) (env : Env) : Expr → Bool
  | .sym name _ =>
    match s.resolve env name with
    | .ok (.deferred other) => decide (other = id)
    | _ => false
  | _ => false

/-- The note on a deferred value that has its value; none on any other. -/
def noteOf (s : Store) (id : ThunkId) (label : Value → String) : String :=
  match s.thunk? id with
  | some (.forced v) => label v
  | _ => ""

end Store

namespace Evaluator

/-- The evaluator that leaves a note of each evaluation that succeeds, if it is told to: of the
environment, the expression and its value. -/
def noting (on : Bool) (note : Env → Expr → Value → String) (ev : Evaluator) : Evaluator where
  eval env e s :=
    match ev.eval env e s with
    | (.ok v, t) => (.ok v, if on then t.note (note env e v) else t)
    | failed => failed
  apply := ev.apply

/-- Evaluation to a nesting of `n`, with a note of each successful evaluation that is made to answer
a demand of this deferred value. -/
def recorded (id : ThunkId) (note : Env → Expr → Value → String) : Nat → Evaluator
  | 0 => idle
  | n + 1 =>
    ⟨fun env e s => ((recorded id note n).noting (s.isDemand id env e) note).evalExpr env e s,
      fun env f args => (recorded id note n).applyValue env f args⟩

/-- An evaluator that is told not to take notes is the evaluator itself. -/
theorem noting_false (note : Env → Expr → Value → String) (ev : Evaluator) :
    ev.noting false note = ev := by
  have heval : (ev.noting false note).eval = ev.eval := by
    funext env e s
    rcases h : ev.eval env e s with ⟨r, t⟩
    cases r <;> simp [noting, h]
  show ⟨(ev.noting false note).eval, ev.apply⟩ = ev
  rw [heval]

/-- What succeeds is noted, behind the notes that its own evaluation has left. -/
theorem eval_noting_of_ok {ev : Evaluator} {env : Env} {e : Expr} {s t : Store} {v : Value}
    (h : ev.eval env e s = (.ok v, t)) (note : Env → Expr → Value → String) :
    (ev.noting true note).eval env e s = (.ok v, t.note (note env e v)) := by
  simp only [noting, h, if_true]

/-- Nothing is noted of an evaluation that does not succeed. -/
theorem eval_noting_of_failed {ev : Evaluator} {env : Env} {e : Expr} {s t : Store}
    {r : Outcome EvalError Value} (h : ev.eval env e s = (r, t)) (hr : ∀ v, r ≠ .ok v) (on : Bool)
    (note : Env → Expr → Value → String) : (ev.noting on note).eval env e s = (r, t) := by
  cases r with
  | ok v => exact absurd rfl (hr v)
  | error | outOfFuel => simp only [noting, h]

end Evaluator

namespace Request

/-- The answer to a request, with a note of each successful evaluation that is made to answer a
demand of this deferred value. -/
def record (id : ThunkId) (note : Env → Expr → Value → String) (n : Nat) : Request → Eval Value
  | .force other => ((Evaluator.recorded id note n).noting (decide (other = id)) note).force other
  | r => r.run (Evaluator.recorded id note n)

/-- The store after some requests that are answered in this way, one after the other. -/
def recordAll (id : ThunkId) (note : Env → Expr → Value → String) (n : Nat)
    (requests : List Request) (s : Store) : Store :=
  requests.foldl (fun s r => (r.record id note n s).2) s

end Request

/-! ### The note that is due -/

namespace Store

variable {s t : Store} {id other : ThunkId} {label : Value → String}

theorem noteOf_of_forced {v : Value} (h : s.thunk? id = some (.forced v)) :
    s.noteOf id label = label v := by
  simp only [noteOf, h]

/-- Nothing is due on a value that is not there. -/
theorem noteOf_of_ne_forced (h : ∀ v, s.thunk? id ≠ some (.forced v)) :
    s.noteOf id label = "" := by
  unfold noteOf
  split
  · next v hv => exact absurd hv (h v)
  · rfl

theorem noteOf_congr (h : t.thunk? id = s.thunk? id) : t.noteOf id label = s.noteOf id label := by
  simp only [noteOf, h]

/-- Nothing is due on a value that has just been made. -/
theorem noteOf_addThunk (s : Store) (e : Expr) (env : Env) (id : ThunkId)
    (label : Value → String) : (s.addThunk e env).noteOf id label = s.noteOf id label := by
  by_cases hid : id = s.nextThunk
  -- neither before it is made nor afterwards does it have a value
  · subst hid
    have hnone : s.thunk? s.nextThunk = none := Array.getElem?_eq_none (Nat.le_refl _)
    rw [noteOf_of_ne_forced (by simp [thunk?_addThunk]), noteOf_of_ne_forced (by simp [hnone])]
  · exact noteOf_congr (by rw [thunk?_addThunk, if_neg hid])

/-- Beginning to evaluate a value changes no note. -/
theorem noteOf_enter {e : Expr} {env : Env} (h : s.thunk? other = some (.pending e env)) :
    (s.enter other).noteOf id label = s.noteOf id label := by
  by_cases hid : id = other
  · subst hid
    rw [noteOf_of_ne_forced (by simp [thunk?_enter_self h]), noteOf_of_ne_forced (by simp [h])]
  · exact noteOf_congr (thunk?_enter_of_ne hid s)

/-- To put an expression back that could not be evaluated changes no note. -/
theorem noteOf_leave_pending (h : s.thunk? other = some .evaluating) (e : Expr) (env : Env) :
    (s.leave other (.pending e env)).noteOf id label = s.noteOf id label := by
  by_cases hid : id = other
  · subst hid
    rw [noteOf_of_ne_forced (by simp [thunk?_leave_self h]), noteOf_of_ne_forced (by simp [h])]
  · exact noteOf_congr (thunk?_leave_of_ne hid s _)

theorem note_empty (s : Store) : s.note "" = s := by
  rw [note, String.empty_append]

end Store

/-! ### Runs with notes beside runs without -/

/-- Runs with notes on a deferred value, beside runs without them: a store with notes is the store
without them after the note that is due.  As long as the value is not there, the note that its
evaluation will leave is known. -/
def Invariant.recording (id : ThunkId) (note : Env → Expr → Value → String)
    (label : Value → String) : Invariant where
  env _ := True
  store s := ∀ env e, s.thunk? id = none ∨ s.thunk? id = some (.pending e env) → note env e = label
  mayGiveUp := False
  view s := s.note (s.noteOf id label)

namespace Invariant

open Store Evaluator

variable {id : ThunkId} {note : Env → Expr → Value → String} {label : Value → String} {n : Nat}

theorem value_recording (v : Value) : (recording id note label).value v :=
  value_of_forall (fun _ => trivial) v

/-- Notes go unnoticed: nothing reads the output, and it goes on at its end. -/
theorem unnoticed_recording (id : ThunkId) (note : Env → Expr → Value → String)
    (label : Value → String) : Unnoticed (recording id note label).view where
  frames _ := rfl
  thunks _ := rfl
  inlines _ := rfl
  functions _ := rfl
  depth _ := rfl
  setFrames _ _ := rfl
  addThunk s e env := by
    show (s.addThunk e env).note (s.noteOf id label) = _
    rw [← noteOf_addThunk s e env]
    rfl
  addInline _ _ := rfl
  addFunction _ := rfl
  print s line := by
    show { s with printed := s.noteOf id label ++ s.printed ++ line ++ "\n" } = _
    rw [String.append_assoc, String.append_assoc, ← @String.append_assoc s.printed]
    rfl

/-- Nothing but a demand changes what is known about the deferred value. -/
theorem lawful_recording (id : ThunkId) (note : Env → Expr → Value → String)
    (label : Value → String) : (recording id note label).Lawful where
  unnoticed := unnoticed_recording id note label
  code _ _ := trivial
  closure _ := Iff.rfl
  within _ _ := trivial
  ofBinding _ _ := value_recording _
  ofInline _ _ := value_recording _
  bind hs _ _ := hs
  unbind hs _ := hs
  assignOuter hs _ _ := hs
  addFrame hs _ := hs
  addThunk {s e env} hs _ := by
    intro env' e' hthunk
    rw [thunk?_addThunk] at hthunk
    split at hthunk
    -- a deferred value that is made now was not there
    · next hid =>
      subst hid
      exact hs _ _ (.inl (Array.getElem?_eq_none (Nat.le_refl _)))
    · exact hs env' e' hthunk
  addInline hs _ := hs
  addFunction hs := hs
  print hs := hs

/-- The invariant is about the deferred value alone, and says nothing of it once it is marked. -/
theorem store_recording_of_ne {s t : Store} {other : ThunkId}
    (hs : (recording id note label).store s)
    (hthunk : ∀ key, key ≠ other → t.thunk? key = s.thunk? key)
    (hself : other = id → ∀ env e, t.thunk? id = none ∨ t.thunk? id = some (.pending e env) →
      note env e = label) : (recording id note label).store t := by
  intro env e ht
  by_cases hid : other = id
  · exact hself hid env e ht
  · rw [hthunk id (Ne.symm hid)] at ht
    exact hs env e ht

/-- A value may be marked in the store with notes as in the one without. -/
theorem view_enter {s : Store} {other : ThunkId} {e : Expr} {env : Env}
    (hpending : s.thunk? other = some (.pending e env)) :
    ((recording id note label).view s).enter other =
      (recording id note label).view (s.enter other) := by
  show (s.enter other).note (s.noteOf id label) = _
  rw [← noteOf_enter hpending]
  rfl

/-- So may the mark be taken off, as long as that makes no note due. -/
theorem view_leave {t : Store} {other : ThunkId} {x : Thunk}
    (h : (t.leave other x).noteOf id label = t.noteOf id label) :
    ((recording id note label).view t).leave other x =
      (recording id note label).view (t.leave other x) := by
  show (t.leave other x).note (t.noteOf id label) = _
  rw [← h]
  rfl

theorem store_recording_enter {s : Store} {other : ThunkId} {x : Thunk}
    (hs : (recording id note label).store s) (hthunk : s.thunk? other = some x) :
    (recording id note label).store (s.enter other) := by
  refine store_recording_of_ne hs (fun key hne => thunk?_enter_of_ne hne s) ?_
  rintro rfl env e h
  rw [thunk?_enter_self hthunk] at h
  simp at h

/-- The evaluation of a pending value has been noted, and the mark is taken off: from then on the
note is due. -/
theorem note_leave_forced {t : Store} {e : Expr} {env : Env} {v : Value}
    (hmarked : t.thunk? id = some .evaluating) (hlabel : note env e = label) :
    (((recording id note label).view t).note (note env e v)).leave id (.forced v) =
      (recording id note label).view (t.leave id (.forced v)) := by
  have hnone : t.noteOf id label = "" := noteOf_of_ne_forced (by simp [hmarked])
  have hdue : (t.leave id (.forced v)).noteOf id label = label v :=
    noteOf_of_forced (thunk?_leave_self hmarked _)
  show (((t.note (t.noteOf id label)).note (note env e v)).leave id (.forced v)) =
    (t.leave id (.forced v)).note ((t.leave id (.forced v)).noteOf id label)
  rw [hnone, hdue, hlabel, note_empty]
  rfl

/-- The demand of a pending value within the limit.  If it is the value that notes are taken of, its
evaluation leaves the first note, which is due from then on. -/
theorem agreesAt_force_recording
    (hev : (recording id note label).Agree (level n) (recorded id note n)) {s : Store}
    {other : ThunkId} {e : Expr} {env : Env} (hs : (recording id note label).store s)
    (hpending : s.thunk? other = some (.pending e env)) (hdepth : s.depth < depthLimit) :
    (recording id note label).AgreesAt (recording id note label).value ((level n).force other)
      (((recorded id note n).noting (decide (other = id)) note).force other) s := by
  have hentered := store_recording_enter hs hpending
  have hmarked : ((level n).eval env e (s.enter other)).2.thunk? other = some .evaluating :=
    (advances_run n (.eval env e) (s.enter other)).evaluating (thunk?_enter_self hpending)
  obtain ⟨heq, hstore, -⟩ := (hev.eval env trivial e trivial).of_not_mayGiveUp not_false hentered
  rcases heval : (level n).eval env e (s.enter other) with ⟨r, t⟩
  rw [heval] at heq hstore hmarked
  rw [← view_enter hpending] at heq
  -- however the evaluation ends, the mark is taken off
  have hleft : ∀ x, (other = id → ∀ env e, x = .pending env e → note e env = label) →
      (recording id note label).store (t.leave other x) := by
    intro x hx
    refine store_recording_of_ne hstore (fun key hne => thunk?_leave_of_ne hne t x) ?_
    rintro rfl env' e' h
    rw [thunk?_leave_self hmarked] at h
    exact hx rfl e' env' (by simpa using h)
  by_cases hr : ∃ v, r = .ok v
  · obtain ⟨v, rfl⟩ := hr
    have hrun := (level n).force_of_completed hpending hdepth heval
    have hstored := hleft (.forced v) (by rintro - env e ⟨⟩)
    by_cases hid : other = id
    -- the evaluation is the one to be noted
    · subst hid
      have hlabel : note env e = label := hs env e (.inr hpending)
      have hnoted := ((recorded other note n).noting true note).force_of_completed
        (s := (recording other note label).view s) hpending hdepth (eval_noting_of_ok heq note)
      rw [note_leave_forced hmarked hlabel] at hnoted
      rw [decide_eq_true rfl]
      exact .of_eq hrun hnoted hstored fun v _ => value_recording v
    · have hplain := (recorded id note n).force_of_completed
        (s := (recording id note label).view s) hpending hdepth heq
      rw [view_leave (noteOf_congr (thunk?_leave_of_ne (Ne.symm hid) t _))] at hplain
      rw [decide_eq_false hid, noting_false]
      exact .of_eq hrun hplain hstored fun v _ => value_recording v
  -- a failure leaves no note, and the value as it was
  · have hr : ∀ v, r ≠ .ok v := fun v hv => hr ⟨v, hv⟩
    have hrun := (level n).force_of_failed hpending hdepth heval hr
    have hfailed := ((recorded id note n).noting (decide (other = id)) note).force_of_failed
      (s := (recording id note label).view s) hpending hdepth (eval_noting_of_failed heq hr _ note)
      hr
    rw [view_leave (noteOf_leave_pending hmarked e env)] at hfailed
    refine .of_eq hrun hfailed (hleft _ ?_) fun v hv => absurd hv (hr v)
    rintro rfl e' env' ⟨⟩
    exact hs env e (.inr hpending)

/-- A demand with notes comes to the demand without them and the note that is due then. -/
theorem agrees_force_recording
    (hev : (recording id note label).Agree (level n) (recorded id note n)) (other : ThunkId) :
    (recording id note label).Agrees (recording id note label).value ((level n).force other)
      (((recorded id note n).noting (decide (other = id)) note).force other) :=
  agrees_force_of_pending (unnoticed_recording id note label) (fun _ v _ _ => value_recording v)
    fun _ _ _ hs hpending hdepth => agreesAt_force_recording hev hs hpending hdepth

/-- Notes are taken of the demand that a name makes, if it is one of the deferred value. -/
theorem agreesAt_lookup_recording
    (hev : (recording id note label).Agree (level n) (recorded id note n)) {s : Store}
    (hs : (recording id note label).store s) (env : Env) (name : String) (span : Span) :
    (recording id note label).AgreesAt (recording id note label).value
      ((level (n + 1)).eval env (.sym name span))
      ((recorded id note (n + 1)).eval env (.sym name span)) s := by
  have hseen : ((recording id note label).view s).resolve env name = s.resolve env name :=
    (unnoticed_recording id note label).resolve s env name
  rcases hresolve : s.resolve env name with missing | v | other
  · refine .of_eq ((level n).lookup_of_missing hresolve) ?_ hs (by rintro v ⟨⟩)
    exact lookup_of_missing _ (hseen.trans hresolve)
  · refine .of_eq ((level n).lookup_of_value hresolve) ?_ hs fun v _ => value_recording v
    exact lookup_of_value _ (hseen.trans hresolve)
  · have hdemand : ((recording id note label).view s).isDemand id env (.sym name span) =
        decide (other = id) := by
      simp only [isDemand, hseen, hresolve]
    refine .congr ((level n).lookup_of_resolve hresolve) ?_ (agrees_force_recording hev other s hs)
    show (noting (((recording id note label).view s).isDemand id env (.sym name span)) note
      (recorded id note n)).lookup env name _ = _
    rw [hdemand]
    exact lookup_of_resolve _ (hseen.trans hresolve)

/-- At every level, a run with notes is the run without them up to the note that is due. -/
theorem agree_recording (id : ThunkId) (note : Env → Expr → Value → String)
    (label : Value → String) (n : Nat) :
    (recording id note label).Agree (level n) (recorded id note n) := by
  have hlawful := lawful_recording id note label
  induction n with
  | zero => exact agree_idle _
  | succ n ih =>
    have hchain := hlawful.chains ih
    refine ⟨fun env henv e he s hs => ?_, fun env henv f hf args hargs => ?_⟩
    -- notes are taken where a name is evaluated, and nowhere else on this level
    · by_cases hsym : ∃ name span, e = .sym name span
      · obtain ⟨name, span, rfl⟩ := hsym
        exact agreesAt_lookup_recording ih hs env name span
      · have hnone : ∀ u : Store, u.isDemand id env e = false := by
          intro u
          cases e with
          | sym name span => exact absurd ⟨name, span, rfl⟩ hsym
          | _ => rfl
        have hexpr := ih.evalExpr hlawful.sound hchain henv
          (fun name span h => absurd ⟨name, span, h⟩ hsym) he
        refine .congr rfl ?_ (hexpr s hs)
        show (noting (((recording id note label).view s).isDemand id env e) note
          (recorded id note n)).evalExpr env e _ = _
        rw [hnone, noting_false]
    · exact ih.applyValue hlawful.sound hchain henv hf hargs

end Invariant

namespace Request

variable {id : ThunkId} {note : Env → Expr → Value → String} {label : Value → String}

/-- A request with notes comes to the request without them and the note that is due then. -/
theorem agrees_record (id : ThunkId) (note : Env → Expr → Value → String) (label : Value → String)
    (n : Nat) (r : Request) :
    (Invariant.recording id note label).Agrees (Invariant.recording id note label).value
      (r.run (.level n)) (r.record id note n) := by
  have hev := Invariant.agree_recording id note label n
  have hlawful := Invariant.lawful_recording id note label
  have hplain : (∀ other, r ≠ .force other) →
      (Invariant.recording id note label).Agrees (Invariant.recording id note label).value
        (r.run (.level n)) (r.run (.recorded id note n)) := fun h =>
    hev.run hlawful.sound (hlawful.chains hev) (fun other hr => absurd hr (h other))
      (r.good_of_forall (fun _ => trivial) fun _ => trivial) (hlawful.written r)
  cases r with
  | force other => exact Invariant.agrees_force_recording hev other
  | _ => exact hplain (by rintro other ⟨⟩)

/-- A sequence of requests with notes ends as the one without, with the note that is due at the end
in place of the one that was due at the start. -/
theorem recordAll_eq (n : Nat) (requests : List Request) {s : Store}
    (hs : (Invariant.recording id note label).store s) :
    recordAll id note n requests (s.note (s.noteOf id label)) =
        (runAll (.level n) requests s).note ((runAll (.level n) requests s).noteOf id label) ∧
      (Invariant.recording id note label).store (runAll (.level n) requests s) := by
  induction requests generalizing s with
  | nil => exact ⟨rfl, hs⟩
  | cons r rest ih =>
    obtain ⟨heq, hstore, -⟩ := (agrees_record id note label n r).of_not_mayGiveUp not_false hs
    obtain ⟨hrest, hend⟩ := ih hstore
    refine ⟨?_, hend⟩
    have hfirst := congrArg (fun answer : Outcome EvalError Value × Store =>
      recordAll id note n rest answer.2) heq
    exact hfirst.trans hrest

/-- The answer to a request at the end of such a sequence, for any notes that are the same for all
expressions that the deferred value may turn out to stand for. -/
theorem record_recordAll (n : Nat) (before : List Request) (r : Request) {s : Store}
    (hs : (Invariant.recording id note label).store s) :
    let t := (r.run (.level n) (runAll (.level n) before s)).2
    r.record id note n (recordAll id note n before (s.note (s.noteOf id label))) =
      ((r.run (.level n) (runAll (.level n) before s)).1, t.note (t.noteOf id label)) := by
  obtain ⟨hbefore, hstore⟩ := recordAll_eq n before hs
  rw [hbefore]
  exact ((agrees_record id note label n r).of_not_mayGiveUp not_false hstore).1

/-- Nothing is evaluated any more for a deferred value that has its value. -/
theorem record_of_forced (n : Nat) (before : List Request) (r : Request) {s : Store} {v : Value}
    (h : s.thunk? id = some (.forced v)) :
    r.record id note n (recordAll id note n before s) =
      r.run (.level n) (runAll (.level n) before s) := by
  have hstore : (Invariant.recording id note fun _ => "").store s := by
    rintro env e (hnone | hpending)
    · simp [h] at hnone
    · simp [h] at hpending
  -- the empty note is due, which changes nothing
  have hempty : ∀ u : Store, u.note (u.noteOf id fun _ => "") = u := by
    intro u
    have hnote : u.noteOf id (fun _ => "") = "" := by
      unfold Store.noteOf
      split <;> rfl
    rw [hnote, Store.note_empty]
  have hrun := record_recordAll n before r hstore
  simp only [hempty] at hrun
  exact hrun

/-- From a store in which the value is not there, what is due at the end is all that is noted. -/
theorem record_of_ne_forced (n : Nat) (before : List Request) (r : Request) {s : Store}
    (hs : (Invariant.recording id note label).store s)
    (h : ∀ v, s.thunk? id ≠ some (.forced v)) :
    let t := (r.run (.level n) (runAll (.level n) before s)).2
    r.record id note n (recordAll id note n before s) =
      ((r.run (.level n) (runAll (.level n) before s)).1, t.note (t.noteOf id label)) := by
  have hrun := record_recordAll n before r hs
  rw [Store.noteOf_of_ne_forced h, Store.note_empty] at hrun
  exact hrun

/-- A pending expression leaves one note, with its value, if the value is there at the end. -/
theorem record_of_pending (n : Nat) (before : List Request) (r : Request) {s : Store} {e : Expr}
    {env : Env} (h : s.thunk? id = some (.pending e env)) (note : Env → Expr → Value → String) :
    let t := (r.run (.level n) (runAll (.level n) before s)).2
    r.record id note n (recordAll id note n before s) =
      ((r.run (.level n) (runAll (.level n) before s)).1, t.note (t.noteOf id (note env e))) := by
  refine record_of_ne_forced n before r ?_ (by simp [h])
  rintro env' e' (hnone | hpending)
  · simp [h] at hnone
  · rw [h] at hpending
    cases hpending
    rfl

end Request

/-- A chain that is evaluated step by step comes to one note on a deferred value that is made and
gets its value on the way. -/
theorem Evaluator.evalEager_recorded {id : ThunkId} {s : Store} (h : s.thunk? id = none) (n : Nat)
    (env : Env) (es : List Expr) (label : Value → String) :
    let t := ((level n).evalEager env es s).2
    (recorded id (fun _ _ => label) n).evalEager env es s =
      (((level n).evalEager env es s).1, t.note (t.noteOf id label)) := by
  have hlawful := Invariant.lawful_recording id (fun _ _ => label) label
  have hagrees := hlawful.chains (Invariant.agree_recording id (fun _ _ => label) label n) env
    trivial es fun _ _ => trivial
  have hstart : (Invariant.recording id (fun _ _ => label) label).view s = s := by
    show s.note (s.noteOf id label) = s
    rw [Store.noteOf_of_ne_forced (by simp [h]), Store.note_empty]
  have hs : (Invariant.recording id (fun _ _ => label) label).store s := fun _ _ _ => rfl
  have hrun := (hagrees.of_not_mayGiveUp not_false hs).1
  rw [hstart] at hrun
  exact hrun

end PipeLang
