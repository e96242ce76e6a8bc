import PipeLang.Proofs.FirstOrder
import PipeLang.Proofs.Nesting
import PipeLang.Proofs.History

/-!
# Runs that follow one another

A computation follows another one (`Eval.Follows`) if, from stores that are related, it ends in the
same way whenever the other one ends, and leaves related stores unless it fails.  The relation says
as much of the stores as the computations depend on; it need not say that they are equal.

Such a relation goes through sequences, so a first-order expression is followed by itself in any
other place in which its names have the same values and the placeholder is followed by itself
(`Calculation.follows`).  The placeholder may be deferred there.  While it is, the stores are those
in which the demand begins, and afterwards they are related as the evaluation has left them, but for
the value that is kept (`Demanded`).  So demands follow one another if the evaluations do
(`Demanded.follows_force`), and one deferred value after the other can be put on top of a relation.
-/

namespace PipeLang

namespace Eval

variable {α β : Type} {R Q : Store → Store → Prop}

/-- The second end is like the first one, if there is a first one: the outcome is the same, and a
result comes with related stores. -/
inductive EndsLike (R : Store → Store → Prop) :
    Outcome EvalError α × Store → Outcome EvalError α × Store → Prop
  | ok {a : α} {s t : Store} (h : R s t) : EndsLike R (.ok a, s) (.ok a, t)
  | error (e : EvalError) (s t : Store) : EndsLike R (.error e, s) (.error e, t)
  | outOfFuel (s : Store) (y : Outcome EvalError α × Store) : EndsLike R (.outOfFuel, s) y

/-- From related stores the second computation ends like the first one. -/
def Follows (R : Store → Store → Prop) (x y : Eval α) : Prop :=
  ∀ s t, R s t → EndsLike R (x s) (y t)

theorem EndsLike.fst_eq {x y : Outcome EvalError α × Store} (h : EndsLike R x y)
    (hfuel : x.1 ≠ .outOfFuel) : y.1 = x.1 := by
  cases h with
  | ok | error => rfl
  | outOfFuel => exact absurd rfl hfuel

theorem EndsLike.mono {x y : Outcome EvalError α × Store} (h : EndsLike R x y)
    (hle : ∀ s t, R s t → Q s t) : EndsLike Q x y := by
  cases h with
  | ok h => exact .ok (hle _ _ h)
  | error => exact .error _ _ _
  | outOfFuel => exact .outOfFuel _ _

/-- Nothing but the outcomes matters if nothing is said of the stores. -/
theorem EndsLike.of_fst_eq {x x' y y' : Outcome EvalError α × Store} (h : EndsLike R x y)
    (hx : x'.1 = x.1) (hy : y'.1 = y.1) : EndsLike (fun _ _ => True) x' y' := by
  obtain ⟨r, s⟩ := x'
  obtain ⟨r', t⟩ := y'
  obtain rfl : r = x.1 := hx
  obtain rfl : r' = y.1 := hy
  cases h with
  | ok => exact .ok trivial
  | error => exact .error _ _ _
  | outOfFuel => exact .outOfFuel _ _

/-- A computation that ends like itself leaves its store related to itself. -/
theorem EndsLike.refl {x : Outcome EvalError α × Store} (h : ∀ a, x.1 = .ok a → R x.2 x.2) :
    EndsLike R x x := by
  obtain ⟨r, s⟩ := x
  cases r with
  | ok a => exact .ok (h a rfl)
  | error e => exact .error e s s
  | outOfFuel => exact .outOfFuel s _

/-- The second end may be given up for another one that is the same unless it ran out of fuel. -/
theorem EndsLike.extend {x y z : Outcome EvalError α × Store} (h : EndsLike R x y)
    (hyz : y.1 ≠ .outOfFuel → z = y) : EndsLike R x z := by
  cases h with
  | ok h =>
    rw [hyz (by rintro ⟨⟩)]
    exact .ok h
  | error =>
    rw [hyz (by rintro ⟨⟩)]
    exact .error _ _ _
  | outOfFuel => exact .outOfFuel _ _

/-- What ends at one bound ends in the same way at every larger one. -/
theorem EndsLike.of_le {x : Outcome EvalError Value × Store} {n m : Nat} {env : Env} {e : Expr}
    {t : Store} (h : EndsLike R x ((Evaluator.level n).eval env e t)) (hle : n ≤ m) :
    EndsLike R x ((Evaluator.level m).eval env e t) :=
  h.extend (Request.run_mono hle (.eval env e))

theorem sequential_follows (R : Store → Store → Prop) : Sequential (Follows R) where
  giveUp _ _ _ := .outOfFuel _ _
  ofExcept x s t h := by
    cases x with
    | ok a => exact .ok h
    | error e => exact .error e s t
  bind {α β x y f g} hx hf s t h := by
    have hends := hx s t h
    rw [bind_apply, bind_apply]
    generalize x s = first at hends ⊢
    generalize y t = second at hends ⊢
    cases hends with
    | ok h => exact hf _ _ _ h
    | error => exact .error _ _ _
    | outOfFuel => exact .outOfFuel _ _

theorem Follows.update {f g : Store → Store} (h : ∀ s t, R s t → R (f s) (g t)) :
    Follows R (update f) (update g) :=
  fun s t hst => .ok (h s t hst)

end Eval

open Eval

/-! ### First-order expressions -/

/-- A first-order expression is followed by itself in a place where its names refer to the same,
if the placeholder is. -/
theorem Calculation.follows {R : Store → Store → Prop} {here there : Env} {nesting : Nat} {e : Expr}
    (hnames : ∀ s t, R s t → ∀ name, name ≠ placeholder →
      t.resolve there name = s.resolve here name)
    (harrival : ∀ k, Follows R ((Evaluator.level k).lookup here placeholder)
      ((Evaluator.level (k + nesting)).lookup there placeholder))
    (he : ∀ s t, R s t → Calculation s here e) (k : Nat) :
    Follows R ((Evaluator.level k).eval here e) ((Evaluator.level (k + nesting)).eval there e) := by
  intro s t hst
  -- in each pair of stores the names may have other values
  let met (e : Expr) : Prop := ∀ s t, R s t → Calculation s here e
  have hparts : ∀ {e}, met e → ∀ part ∈ e.parts, met part :=
    fun hmet part hpart s t h => (hmet s t h).parts part hpart
  refine Calculation.related (sequential_follows R) hparts ?_ ?_ (he s t hst) he k s t hst
  · intro name span hmet k s t h
    cases hmet s t h with
    | name hbound =>
      by_cases hname : name = placeholder
      · subst hname
        exact harrival k s t h
      · obtain ⟨v, hv⟩ := hbound.resolve_left hname
        rw [Evaluator.lookup_of_value _ hv,
          Evaluator.lookup_of_value _ ((hnames s t h name hname).trans hv)]
        exact .ok h
  · intro name at_ args span hmet ev ev' f g hfg s t h
    cases hmet s t h with
    | call hname hbound hn =>
      rw [bind_of_ok (ev.lookup_of_value hbound),
        bind_of_ok (ev'.lookup_of_value ((hnames s t h name hname).trans hbound))]
      exact hfg _ hn s t h

/-! ### Demands -/

/-- Two runs before and after a demand of a deferred value in each.  Before it they are in these two
stores; after it, in stores that the evaluation has left related, with the value kept in both. -/
inductive Demanded (id id' : ThunkId) (first second : Store) (R : Store → Store → Prop) :
    Store → Store → Prop
  | before : Demanded id id' first second R first second
  | after {s t : Store} (h : R s t) (hs : s.thunk? id = some .evaluating)
      (ht : t.thunk? id' = some .evaluating) (v : Value) :
      Demanded id id' first second R (s.leave id (.forced v)) (t.leave id' (.forced v))

namespace Demanded

variable {id id' : ThunkId} {first second : Store} {R : Store → Store → Prop} {e e' : Expr}
  {here there : Env}

theorem flip_iff {s t : Store} :
    Demanded id' id second first (flip R) t s ↔ Demanded id id' first second R s t := by
  have hflip : ∀ {id id' first second} {R : Store → Store → Prop} {s t},
      Demanded id id' first second R s t → Demanded id' id second first (flip R) t s := by
    rintro id id' first second R _ _ (_ | @⟨s, t, h, hs, ht, v⟩)
    · exact .before
    · have hflipped : flip R t s := h
      exact .after hflipped ht hs v
  exact ⟨hflip, hflip⟩

/-- The demands follow one another if the evaluations do, from the marked values. -/
theorem follows_force {n m : Nat} (hfirst : first.thunk? id = some (.pending e here))
    (hsecond : second.thunk? id' = some (.pending e' there)) (hdepth : second.depth = first.depth)
    (heval : EndsLike R ((Evaluator.level n).eval here e (first.enter id))
      ((Evaluator.level m).eval there e' (second.enter id'))) :
    Follows (Demanded id id' first second R) ((Evaluator.level n).force id)
      ((Evaluator.level m).force id') := by
  rintro _ _ (_ | ⟨h, hs, ht, v⟩)
  · rcases Nat.lt_or_ge first.depth depthLimit with hlt | hge
    · rw [Evaluator.force_of_pending _ hfirst hlt,
        Evaluator.force_of_pending _ hsecond (hdepth ▸ hlt)]
      -- a value that is marked stays so
      have hmarked := (Store.advances_run n (.eval here e) (first.enter id)).evaluating
        (Store.thunk?_enter_self hfirst)
      have hmarked' := (Store.advances_run m (.eval there e') (second.enter id')).evaluating
        (Store.thunk?_enter_self hsecond)
      rw [Request.run] at hmarked hmarked'
      generalize (Evaluator.level n).eval here e (first.enter id) = x at heval hmarked ⊢
      generalize (Evaluator.level m).eval there e' (second.enter id') = y at heval hmarked' ⊢
      cases heval with
      | ok h => exact .ok (.after h hmarked hmarked' _)
      | error => exact .error _ _ _
      | outOfFuel => exact .outOfFuel _ _
    · rw [Evaluator.force_of_tooDeep _ hfirst hge,
        Evaluator.force_of_tooDeep _ hsecond (hdepth ▸ hge)]
      exact .error _ _ _
  · rw [Evaluator.force_of_forced _ (Store.thunk?_leave_self hs _),
      Evaluator.force_of_forced _ (Store.thunk?_leave_self ht _)]
    exact .ok (.after h hs ht v)

end Demanded

end PipeLang
