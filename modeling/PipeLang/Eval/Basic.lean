import PipeLang.EvalError
import PipeLang.Outcome
import PipeLang.Store.Lookup

/-!
# Evaluations

An evaluation takes the store to an outcome and a new store.  The new store is there in every
case: what was printed, bound or evaluated before an error stays.

Evaluating an expression and applying a function need each other, and both are needed by the
pipes and by some builtins.  An `Evaluator` is a pair of the two; the parts of the interpreter are
written against any such pair, so a fact about one of them needs only facts about the pair.
-/

namespace PipeLang

/-- A computation on the store. -/
def Eval (α : Type) : Type := Store → Outcome EvalError α × Store

namespace Eval

variable {α β : Type}

/-- A result without an effect. -/
@[always_inline, inline]
protected def pure (a : α) : Eval α := fun s => (.ok a, s)

/-- Go on with a result and the store that came with it. -/
@[always_inline, inline]
protected def bind (x : Eval α) (f : α → Eval β) : Eval β := fun s =>
  match x s with
  | (.ok a, s) => f a s
  | (.error e, s) => (.error e, s)
  | (.outOfFuel, s) => (.outOfFuel, s)

@[always_inline]
instance : Monad Eval where
  pure := Eval.pure
  bind := Eval.bind

/-- Fail. -/
@[always_inline, inline]
def fail (e : EvalError) : Eval α := fun s => (.error e, s)

/-- Give up. -/
@[always_inline, inline]
def giveUp : Eval α := fun s => (.outOfFuel, s)

/-- Look at the store. -/
@[always_inline, inline]
def read (f : Store → α) : Eval α := fun s => (.ok (f s), s)

/-- Change the store. -/
@[always_inline, inline]
def update (f : Store → Store) : Eval Unit := fun s => (.ok (), f s)

/-- Make something in the store. -/
@[always_inline, inline]
def make (f : Store → α × Store) : Eval α := fun s =>
  let (a, s) := f s
  (.ok a, s)

/-- A result or an error without an effect. -/
@[always_inline, inline]
def ofExcept (x : Except EvalError α) : Eval α := fun s =>
  match x with
  | .ok a => (.ok a, s)
  | .error e => (.error e, s)

@[always_inline]
instance : MonadLift (Except EvalError) Eval where
  monadLift := ofExcept

/-- Change the store at the end, however the computation ends. -/
@[always_inline, inline]
def ensuring (x : Eval α) (tidy : Store → Store) : Eval α := fun s =>
  let (r, s) := x s
  (r, tidy s)

/-! ### The monad laws -/

@[simp] theorem pure_apply (a : α) (s : Store) : (pure a : Eval α) s = (.ok a, s) := rfl

theorem bind_apply (x : Eval α) (f : α → Eval β) (s : Store) :
    (x >>= f) s = match x s with
      | (.ok a, s) => f a s
      | (.error e, s) => (.error e, s)
      | (.outOfFuel, s) => (.outOfFuel, s) := rfl

theorem bind_of_ok {x : Eval α} {f : α → Eval β} {s t : Store} {a : α} (h : x s = (.ok a, t)) :
    (x >>= f) s = f a t := by
  rw [bind_apply, h]

theorem bind_of_error {x : Eval α} {f : α → Eval β} {s t : Store} {e : EvalError}
    (h : x s = (.error e, t)) : (x >>= f) s = (.error e, t) := by
  rw [bind_apply, h]

theorem bind_of_outOfFuel {x : Eval α} {f : α → Eval β} {s t : Store}
    (h : x s = (.outOfFuel, t)) : (x >>= f) s = (.outOfFuel, t) := by
  rw [bind_apply, h]

/-- A sequence has a result exactly if both parts do, the second one in the store that the first one
has left. -/
theorem bind_eq_ok_iff {x : Eval α} {f : α → Eval β} {s t : Store} {b : β} :
    (x >>= f) s = (.ok b, t) ↔ ∃ a u, x s = (.ok a, u) ∧ f a u = (.ok b, t) := by
  rw [bind_apply]
  rcases x s with ⟨a | e | _, u⟩
  · constructor
    · intro h
      exact ⟨a, u, rfl, h⟩
    · rintro ⟨_, _, ⟨⟩, h⟩
      exact h
  · simp
  · simp

@[simp] theorem fail_apply (e : EvalError) (s : Store) : (fail e : Eval α) s = (.error e, s) := rfl

@[simp] theorem giveUp_apply (s : Store) : (giveUp : Eval α) s = (.outOfFuel, s) := rfl

@[simp] theorem read_apply (f : Store → α) (s : Store) : read f s = (.ok (f s), s) := rfl

@[simp] theorem update_apply (f : Store → Store) (s : Store) : update f s = (.ok (), f s) := rfl

@[simp] theorem make_apply (f : Store → α × Store) (s : Store) :
    make f s = (.ok (f s).1, (f s).2) := rfl

@[simp] theorem ensuring_apply (x : Eval α) (tidy : Store → Store) (s : Store) :
    ensuring x tidy s = ((x s).1, tidy (x s).2) := rfl

instance : LawfulMonad Eval :=
  LawfulMonad.mk' Eval
    (fun x => by
      funext s
      change Eval.bind x (fun a => Eval.pure (id a)) s = x s
      unfold Eval.bind Eval.pure
      rcases x s with ⟨_ | _ | _, _⟩ <;> rfl)
    (fun _ _ => rfl)
    (fun x f g => by
      funext s
      change Eval.bind (Eval.bind x f) g s = Eval.bind x (fun a => Eval.bind (f a) g) s
      unfold Eval.bind
      rcases x s with ⟨_ | _ | _, _⟩ <;> rfl)

end Eval

/-- How expressions are evaluated and functions applied. -/
structure Evaluator where
  /-- The value of an expression in an environment. -/
  eval : Env → Expr → Eval Value
  /-- The answer of a function to evaluated arguments, asked for from an environment. -/
  apply : Env → Value → List Value → Eval Value

namespace Evaluator

/-- The evaluator that always gives up. -/
def idle : Evaluator := ⟨fun _ _ => .giveUp, fun _ _ _ => .giveUp⟩

variable (ev : Evaluator)

/-- The values of some expressions, from the left. -/
def evalAll (env : Env) (es : List Expr) : Eval (List Value) := es.mapM (ev.eval env)

/-- The value of the last of some statements, all evaluated in order; `null` of none. -/
def evalStatements (env : Env) (es : List Expr) : Eval Value :=
  es.foldlM (fun _ e => ev.eval env e) .null

/-- Functions one after the other, each on the answer of the one before. -/
def applyAll (env : Env) (fs : List Value) (v : Value) : Eval Value :=
  fs.foldlM (fun v f => ev.apply env f [v]) v

end Evaluator

end PipeLang
