/-!
# Outcomes of bounded computations

A computation with a bound on its recursion ends in one of three ways: with a result, with an
error of its own, or because the bound was too small.  The three are kept apart, so that nothing
is ever concluded from a bound that was too small.
-/

namespace PipeLang

/-- How a bounded computation ends. -/
inductive Outcome (ε α : Type) where
  | ok (a : α)
  | error (e : ε)
  /-- The bound was too small to tell. -/
  | outOfFuel
deriving DecidableEq

namespace Outcome

variable {ε α β γ : Type}

/-- Go on with a result; stop at anything else. -/
@[always_inline, inline]
protected def bind (x : Outcome ε α) (f : α → Outcome ε β) : Outcome ε β :=
  match x with
  | ok a => f a
  | error e => error e
  | outOfFuel => outOfFuel

@[always_inline]
instance : Monad (Outcome ε) where
  pure := ok
  bind := Outcome.bind

/-! ### The monad laws -/

@[simp] theorem pure_eq_ok (a : α) : (pure a : Outcome ε α) = ok a := rfl

@[simp] theorem ok_bind (a : α) (f : α → Outcome ε β) : (ok a >>= f) = f a := rfl

@[simp] theorem error_bind (e : ε) (f : α → Outcome ε β) : (error e >>= f) = error e := rfl

@[simp] theorem outOfFuel_bind (f : α → Outcome ε β) :
    ((outOfFuel : Outcome ε α) >>= f) = outOfFuel := rfl

instance : LawfulMonad (Outcome ε) :=
  LawfulMonad.mk' (Outcome ε)
    (fun x => by cases x <;> rfl)
    (fun _ _ => rfl)
    (fun x _ _ => by cases x <;> rfl)

/-- A sequence has a result exactly if both parts do. -/
theorem bind_eq_ok_iff {x : Outcome ε α} {f : α → Outcome ε β} {b : β} :
    (x >>= f) = ok b ↔ ∃ a, x = ok a ∧ f a = ok b := by
  cases x <;> simp

/-- A sequence runs out of fuel exactly if its first part does, or its second part after it. -/
theorem bind_eq_outOfFuel_iff {x : Outcome ε α} {f : α → Outcome ε β} :
    (x >>= f) = outOfFuel ↔ x = outOfFuel ∨ ∃ a, x = ok a ∧ f a = outOfFuel := by
  cases x <;> simp

/-- The result or the error of an outcome that is known not to be out of fuel. -/
def toExcept : (x : Outcome ε α) → x ≠ outOfFuel → Except ε α
  | ok a, _ => .ok a
  | error e, _ => .error e
  | outOfFuel, h => absurd rfl h

end Outcome

end PipeLang
