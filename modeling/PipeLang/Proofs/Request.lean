import PipeLang.Proofs.Demand

/-!
# Requests to the interpreter

A `Request` is one call of one of the interpreter's functions, and a run is a list of them, each
made in the store that the one before has left, however that one has ended.

What holds while a request is being answered is said with `EveryEntry`: whenever `eval` is entered,
at any depth of the answer, a test of the environment, the expression and the store holds.  To say
so without a second interpreter, the evaluator is watched (`Evaluator.watched`): wherever the test
fails, an alarm is raised, that is, any computation at all is done instead.  The test holds at
every entry if no alarm makes a difference.

An invariant gives both what holds after a request and what holds at the entries on the way.  Often
it takes a family of invariants, of which each is needed for the others: `Invariant.Kept` says that
evaluations keep such a family, one nesting level after the other (`Kept.agree_watched`,
`Kept.agree`, `Kept.store_of_run`, `Kept.everyEntry`).
-/

namespace PipeLang

/-- A call of one of the functions of the interpreter. -/
inductive Request where
  /-- The value of an expression. -/
  | eval (env : Env) (e : Expr)
  /-- The value of a program. -/
  | program (env : Env) (stmts : List Expr)
  /-- The answer of a function to expressions. -/
  | call (env : Env) (f : Value) (args : List Expr) (callee : Expr)
  /-- The answer of a function to values. -/
  | apply (env : Env) (f : Value) (args : List Value)
  /-- The value of a pipe. -/
  | pipe (env : Env) (kind? : Option PipeKind) (isLazy : Bool) (left right : Expr)
  /-- The value of a deferred value. -/
  | force (id : ThunkId)

namespace Request

/-- The answer of an evaluator. -/
def run (ev : Evaluator) : Request → Eval Value
  | eval env e => ev.eval env e
  | program env stmts => ev.evalStatements env stmts
  | call env f args callee => ev.applyCall env f args callee
  | apply env f args => ev.apply env f args
  | pipe env kind? isLazy left right => ev.pipe env kind? isLazy left right
  | force id => ev.force id

/-- The store after some requests, one after the other. -/
def runAll (ev : Evaluator) (requests : List Request) (s : Store) : Store :=
  requests.foldl (fun s r => (r.run ev s).2) s

/-- The environments and values that the request brings along are good. -/
def Good (inv : Invariant) : Request → Prop
  | eval env _ | program env _ | pipe env .. => inv.env env
  | call env f _ _ => inv.env env ∧ inv.value f
  | apply env f args => inv.env env ∧ inv.value f ∧ ∀ v ∈ args, inv.value v
  | force _ => True

/-- So are the expressions. -/
def Written (inv : Invariant) : Request → Prop
  | eval env e => inv.code env e
  | program env stmts => ∀ e ∈ stmts, inv.code env e
  | call env _ args _ => ∀ e ∈ args, inv.code env e
  | pipe env _ _ left right => inv.code env left ∧ inv.code env right
  | apply .. | force _ => True

end Request

/-- Where all environments and closures are good, all requests are. -/
theorem Request.good_of_forall {inv : Invariant} (henv : ∀ env, inv.env env)
    (hclosure : ∀ c, inv.closure c) (r : Request) : r.Good inv := by
  have hvalue : ∀ v, inv.value v := Invariant.value_of_forall hclosure
  cases r with
  | eval env | program env | pipe env => exact henv env
  | force => exact trivial
  | call env f => exact ⟨henv env, hvalue f⟩
  | apply env f => exact ⟨henv env, hvalue f, fun v _ => hvalue v⟩

/-- Under a lawful invariant a request may bring along any expression. -/
theorem Invariant.Lawful.written {inv : Invariant} (hinv : inv.Lawful) (r : Request) :
    r.Written inv := by
  cases r with
  | eval env e => exact hinv.code env e
  | program env _ | call env _ _ _ => exact fun e _ => hinv.code env e
  | pipe env _ _ left right => exact ⟨hinv.code env left, hinv.code env right⟩
  | apply | force => exact trivial

/-- Two evaluators that agree give the same answers to good requests; the demands of deferred values
matter only where the request is one. -/
theorem Invariant.Agree.run {inv : Invariant} {ev other : Evaluator} (hinv : inv.Sound)
    (hev : inv.Agree ev other) (hchain : inv.Chains ev other) {r : Request}
    (hforce : ∀ id, r = .force id → inv.Agrees inv.value (ev.force id) (other.force id))
    (hr : r.Good inv) (hcode : r.Written inv) :
    inv.Agrees inv.value (r.run ev) (r.run other) := by
  cases r with
  | eval env e => exact hev.eval env hr e hcode
  | program env stmts => exact hev.evalStatements hr hcode
  | call env f args callee => exact hev.applyCall hinv hchain hr.1 hr.2 hcode callee
  | apply env f args => exact hev.apply env hr.1 f hr.2.1 args hr.2.2
  | pipe env kind? isLazy left right =>
    exact hev.pipe hinv hchain hr kind? isLazy hcode.1 hcode.2
  | force id => exact hforce id rfl

/-! ### Watching the entries of an evaluator -/

namespace Evaluator

open Classical in
/-- The evaluator with a test before each evaluation of an expression. -/
noncomputable def guarded (test : Env → Expr → Store → Prop) (alarm : Env → Expr → Eval Value)
    (ev : Evaluator) : Evaluator where
  eval env e s := if test env e s then ev.eval env e s else alarm env e s
  apply := ev.apply

/-- Evaluation to a nesting of `n`, with a test at every entry. -/
noncomputable def watched (test : Env → Expr → Store → Prop) (alarm : Env → Expr → Eval Value) :
    Nat → Evaluator
  | 0 => idle.guarded test alarm
  | n + 1 => (watched test alarm n).step.guarded test alarm

variable {test : Env → Expr → Store → Prop} {alarm : Env → Expr → Eval Value} {env : Env} {e : Expr}
  {s : Store}

theorem eval_guarded_of_test (h : test env e s) (ev : Evaluator) :
    (ev.guarded test alarm).eval env e s = ev.eval env e s := if_pos h

theorem eval_guarded_of_not_test (h : ¬ test env e s) (ev : Evaluator) :
    (ev.guarded test alarm).eval env e s = alarm env e s := if_neg h

theorem eval_watched_of_test (h : test env e s) (n : Nat) :
    (watched test alarm (n + 1)).eval env e s = (watched test alarm n).evalExpr env e s := if_pos h

theorem eval_watched_of_not_test (h : ¬ test env e s) (n : Nat) :
    (watched test alarm n).eval env e s = alarm env e s := by
  cases n <;> exact if_neg h

/-- With a test that always holds nothing is watched. -/
theorem watched_of_forall (htest : ∀ env e s, test env e s) (alarm : Env → Expr → Eval Value)
    (n : Nat) : watched test alarm n = level n := by
  have hguarded : ∀ ev : Evaluator, ev.guarded test alarm = ev := by
    intro ev
    have heval : (ev.guarded test alarm).eval = ev.eval := by
      funext env e s
      exact eval_guarded_of_test (htest env e s) ev
    show ⟨(ev.guarded test alarm).eval, ev.apply⟩ = ev
    rw [heval]
  induction n with
  | zero => exact hguarded _
  | succ n ih =>
    show (watched test alarm n).step.guarded test alarm = _
    rw [hguarded, ih, level_succ]

end Evaluator

/-- While a request is answered to a nesting of `n`, a test holds at every entry: what is done
where it fails makes no difference. -/
def EveryEntry (test : Env → Expr → Store → Prop) (n : Nat) (r : Request) (s : Store) : Prop :=
  ∀ alarm, r.run (Evaluator.watched test alarm n) s = r.run (Evaluator.level n) s

/-- The same of any computation: whatever is done where the test fails, the outcome is the same.
Nothing catches an error, so one that is raised there would be the outcome. -/
def Evaluator.Throughout (test : Env → Expr → Store → Prop) (n : Nat)
    (run : Evaluator → Eval Value) (s : Store) : Prop :=
  ∀ alarm, (run (.watched test alarm n) s).1 = (run (.level n) s).1

theorem EveryEntry.throughout {test : Env → Expr → Store → Prop} {n : Nat} {r : Request} {s : Store}
    (h : EveryEntry test n r s) : Evaluator.Throughout test n (fun ev => r.run ev) s :=
  fun alarm => congrArg Prod.fst (h alarm)

/-- The evaluation itself is the first entry. -/
theorem Evaluator.Throughout.test_of_eval {test : Env → Expr → Store → Prop} {n : Nat} {env : Env}
    {e : Expr} {s : Store} (h : Throughout test n (fun ev => ev.eval env e) s) : test env e s := by
  refine Classical.byContradiction fun htest => ?_
  -- two alarms that end with different outcomes cannot both agree with the evaluator
  have halarm : ∀ alarm : Env → Expr → Eval Value,
      (alarm env e s).1 = ((level n).eval env e s).1 := fun alarm =>
    (congrArg Prod.fst (eval_watched_of_not_test htest n).symm).trans (h alarm)
  cases (halarm fun _ _ => pure .null).trans (halarm fun _ _ => .giveUp).symm

/-- An evaluation that is requested is the first entry of its request. -/
theorem EveryEntry.test_of_eval {test : Env → Expr → Store → Prop} {n : Nat} {env : Env} {e : Expr}
    {s : Store} (h : EveryEntry test n (.eval env e) s) : test env e s :=
  h.throughout.test_of_eval

/-- The entries of an expression in parentheses are itself and those of the expression inside. -/
theorem everyEntry_paren_iff {test : Env → Expr → Store → Prop} {n : Nat} {env : Env} {e : Expr}
    {span : Span} {s : Store} :
    EveryEntry test (n + 1) (.eval env (.paren e span)) s ↔
      test env (.paren e span) s ∧ EveryEntry test n (.eval env e) s := by
  have hstep : test env (.paren e span) s → ∀ alarm,
      (Evaluator.watched test alarm (n + 1)).eval env (.paren e span) s =
        (Evaluator.watched test alarm n).eval env e s :=
    fun htest _ => Evaluator.eval_watched_of_test htest n
  constructor
  · intro h
    have htest := h.test_of_eval
    exact ⟨htest, fun alarm => (hstep htest alarm).symm.trans (h alarm)⟩
  · rintro ⟨htest, h⟩ alarm
    exact (hstep htest alarm).trans (h alarm)

/-! ### Families of invariants -/

namespace Invariant

variable {ι : Type} {inv : ι → Invariant} {test : Env → Expr → Store → Prop}
  {alarm : Env → Expr → Eval Value}

/-- A test that follows from the invariant makes no difference. -/
theorem Agree.guarded {inv : Invariant} {ev other : Evaluator} (h : inv.Agree ev other)
    (htest : ∀ env e s, inv.env env → inv.code env e → inv.store s → test env e s)
    (hview : inv.view = id) : inv.Agree ev (other.guarded test alarm) where
  eval env henv e he s hs := by
    have hseen : test env e (inv.view s) := by
      rw [hview]
      exact htest env e s henv he hs
    exact .congr rfl (Evaluator.eval_guarded_of_test hseen other) (h.eval env henv e he s hs)
  apply := h.apply

/-- An evaluator that only gives up keeps every invariant. -/
theorem agree_idle (inv : Invariant) : inv.Agree .idle .idle where
  eval _ _ _ _ s hs := .inr ⟨rfl, hs, by rintro v hv; cases hv⟩
  apply _ _ _ _ _ _ s hs := .inr ⟨rfl, hs, by rintro v hv; cases hv⟩

/-- A family of invariants that evaluations keep: if they are kept at one level, the demands and the
chains of the next level keep them too.  The stores that they compare are the same. -/
structure Kept (inv : ι → Invariant) : Prop where
  view : ∀ i, (inv i).view = id
  sound : ∀ i, (inv i).Sound
  forces : ∀ n other, (∀ i, (inv i).Agree (.level n) other) → ∀ i, (inv i).Forces (.level n) other
  chains : ∀ n other, (∀ i, (inv i).Agree (.level n) other) → ∀ i, (inv i).Chains (.level n) other

/-- For lawful invariants only the demands have to be looked at. -/
theorem Kept.of_lawful (hview : ∀ i, (inv i).view = id) (hinv : ∀ i, (inv i).Lawful)
    (hforce : ∀ n other, (∀ i, (inv i).Agree (.level n) other) →
      ∀ i, (inv i).Forces (.level n) other) : Kept inv where
  view := hview
  sound i := (hinv i).sound
  forces := hforce
  chains _ _ hagree i := (hinv i).chains (hagree i)

namespace Kept

variable (hinv : Kept inv)

include hinv

/-- A family that is kept is so at every level, with its test before each evaluation. -/
theorem agree_watched (test : Env → Expr → Store → Prop) (alarm : Env → Expr → Eval Value)
    (htest : ∀ i env e s, (inv i).env env → (inv i).code env e → (inv i).store s → test env e s)
    (n : Nat) (i : ι) : (inv i).Agree (.level n) (.watched test alarm n) := by
  induction n generalizing i with
  | zero => exact (agree_idle _).guarded (htest i) (hinv.view i)
  | succ n ih =>
    have hstep := (ih i).step (hinv.sound i) (hinv.forces n _ ih i) (hinv.chains n _ ih i)
    exact hstep.guarded (htest i) (hinv.view i)

/-- So every level keeps the invariants. -/
theorem agree (n : Nat) (i : ι) : (inv i).Agree (.level n) (.level n) := by
  induction n generalizing i with
  | zero => exact agree_idle _
  | succ n ih => exact (ih i).step (hinv.sound i) (hinv.forces n _ ih i) (hinv.chains n _ ih i)

/-- The answer to a good request keeps the invariant, if it is one that may not give up. -/
theorem store_of_run (i : ι) (hmay : ¬ (inv i).mayGiveUp) {n : Nat} {r : Request}
    (hr : r.Good (inv i)) (hcode : r.Written (inv i)) {s : Store} (hs : (inv i).store s) :
    (inv i).store (r.run (.level n) s).2 ∧
      ∀ v, (r.run (.level n) s).1 = .ok v → (inv i).value v := by
  have hlevel := hinv.agree n
  have hrun := (hlevel i).run (hinv.sound i) (hinv.chains n _ hlevel i)
    (fun id _ => hinv.forces n _ hlevel i id) hr hcode
  exact (hrun.of_not_mayGiveUp hmay hs).2

/-- A test that follows from the invariant holds at every entry. -/
theorem everyEntry (i : ι) (hmay : ¬ (inv i).mayGiveUp)
    (htest : ∀ i env e s, (inv i).env env → (inv i).code env e → (inv i).store s → test env e s)
    {n : Nat} {r : Request} (hr : r.Good (inv i)) (hcode : r.Written (inv i)) {s : Store}
    (hs : (inv i).store s) : EveryEntry test n r s := by
  intro alarm
  have hlevel := hinv.agree_watched test alarm htest n
  have hrun := (hlevel i).run (hinv.sound i) (hinv.chains n _ hlevel i)
    (fun id _ => hinv.forces n _ hlevel i id) hr hcode
  obtain ⟨heq, -⟩ := hrun.of_not_mayGiveUp hmay hs
  rw [hinv.view i] at heq
  exact heq

end Kept

/-- For lawful invariants, a test that follows from environment and store holds at every entry. -/
theorem everyEntry_of_store (inv : ι → Invariant) (hview : ∀ i, (inv i).view = id)
    (hinv : ∀ i, (inv i).Lawful)
    (hforce : ∀ n other, (∀ i, (inv i).Agree (.level n) other) →
      ∀ i, (inv i).Forces (.level n) other) (i : ι) (hmay : ¬ (inv i).mayGiveUp)
    (htest : ∀ i env e s, (inv i).env env → (inv i).store s → test env e s) {n : Nat}
    {r : Request} (hr : r.Good (inv i)) {s : Store} (hs : (inv i).store s) :
    EveryEntry test n r s :=
  (Kept.of_lawful hview hinv hforce).everyEntry i hmay
    (fun i env e s henv _ hs => htest i env e s henv hs) hr ((hinv i).written r) hs

end Invariant

end PipeLang
