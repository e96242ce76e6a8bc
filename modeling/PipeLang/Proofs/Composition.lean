import PipeLang.Program
import PipeLang.Proofs.Strategies

/-!
# Functional sequences compose

There are three ways to put a value through a functional sequence: the sequence is applied to it,
or `freduce` is, with the sequence or with the list of its functions.  All of them are one fold over
the steps (`Evaluator.apply_sequence`, `Evaluator.apply_freduce`, `Evaluator.apply_freduce_list`).

A fold over two lists is a fold over the first and then over the second, with an error of the first
as the end of both (`Evaluator.applyAll_append`).  What steps are told apart by has no part in it
(`Evaluator.applyAll_stepFunctions_congr`), so it does not matter when a sequence was made, and
putting steps in front of others is composition (`sequences_compose`).
-/

namespace PipeLang

/-! ### The steps of a sequence -/

theorem stepFunctions_append (env : Env) (first second : List Expr) (i : Nat) :
    stepFunctions env (first ++ second) i =
      stepFunctions env first i ++ stepFunctions env second (i + first.length) := by
  induction first generalizing i with
  | nil => rfl
  | cons e rest ih =>
    rw [List.cons_append, stepFunctions, ih, stepFunctions, List.cons_append, List.length_cons,
      Nat.add_right_comm, Nat.add_assoc]

/-- The value is a functional sequence of the steps, made in the environment at some time. -/
def Value.IsSequenceOf (f : Value) (env : Env) (steps : List Expr) : Prop :=
  ∃ s t, Eval.makeSequence env steps s = (.ok f, t)

theorem Value.IsSequenceOf.eq_sequence {f : Value} {env : Env} {steps : List Expr}
    (h : f.IsSequenceOf env steps) : ∃ id i, f = .sequence id (stepFunctions env steps i) := by
  obtain ⟨s, t, hmake⟩ := h
  rw [Eval.makeSequence_apply] at hmake
  cases hmake
  exact ⟨_, s.functions, rfl⟩

namespace Evaluator

/-! ### Functions one after the other -/

theorem applyAll_cons (ev : Evaluator) (env : Env) (f : Value) (fs : List Value) (v : Value) :
    ev.applyAll env (f :: fs) v = ev.apply env f [v] >>= ev.applyAll env fs := rfl

theorem applyAll_append (ev : Evaluator) (env : Env) (fs gs : List Value) (v : Value) :
    ev.applyAll env (fs ++ gs) v = ev.applyAll env fs v >>= ev.applyAll env gs :=
  List.foldlM_append

/-- The answer of a closure does not depend on its identity. -/
theorem apply_closure_congr (n : Nat) (env : Env) (id id' : FunctionId) (params : List String)
    (body : Expr) (captured : Env) (args : List Value) :
    (level n).apply env (.closure ⟨id, params, body, captured⟩) args =
      (level n).apply env (.closure ⟨id', params, body, captured⟩) args := by
  cases n with
  | zero => rfl
  | succ n => rfl

theorem applyAll_stepFunctions_congr (n : Nat) (env captured : Env) (steps : List Expr) (i j : Nat)
    (v : Value) :
    (level n).applyAll env (stepFunctions captured steps i) v =
      (level n).applyAll env (stepFunctions captured steps j) v := by
  induction steps generalizing i j v with
  | nil => rfl
  | cons e rest ih =>
    rw [stepFunctions, stepFunctions, applyAll_cons, applyAll_cons]
    rw [apply_closure_congr n env ⟨i⟩ ⟨j⟩]
    exact bind_congr fun w => ih (i + 1) (j + 1) w

/-! ### The ways to apply a sequence -/

variable {n : Nat} {env : Env}

theorem apply_sequence (id : FunctionId) (steps : List Value) (v : Value) :
    (level (n + 1)).apply env (.sequence id steps) [v] = (level n).applyAll env steps v := rfl

theorem apply_freduce (id : FunctionId) (steps : List Value) (v : Value) :
    (level (n + 1)).apply env (.native .freduce) [v, .sequence id steps] =
      (level n).applyAll env steps v := rfl

theorem apply_freduce_list (fs : List Value) (v : Value) :
    (level (n + 1)).apply env (.native .freduce) [v, .list fs] = (level n).applyAll env fs v := rfl

theorem apply_functions (id : FunctionId) (steps : List Value) :
    (level (n + 1)).apply env (.native (.unary .functions)) [.sequence id steps] =
      pure (.list steps) := rfl

/-- A sequence of some steps and then others is applied as the one sequence and then the other. -/
theorem apply_append {captured : Env} {first second : List Expr} {f g h : Value}
    (hf : f.IsSequenceOf captured (first ++ second)) (hg : g.IsSequenceOf captured first)
    (hh : h.IsSequenceOf captured second) (n : Nat) (env : Env) (v : Value) :
    (level n).apply env f [v] = (do
      let w ← (level n).apply env g [v]
      (level n).apply env h [w]) := by
  obtain ⟨id, i, rfl⟩ := hf.eq_sequence
  obtain ⟨id₁, i₁, rfl⟩ := hg.eq_sequence
  obtain ⟨id₂, i₂, rfl⟩ := hh.eq_sequence
  cases n with
  | zero => rfl
  | succ n =>
    simp only [apply_sequence]
    rw [stepFunctions_append, applyAll_append, applyAll_stepFunctions_congr n env _ first i i₁]
    exact bind_congr fun w => applyAll_stepFunctions_congr n env _ second _ i₂ w

end Evaluator

/-! ### One function -/

/-- A functional sequence is one function.  Applied to a value it comes to what `freduce` comes to
for the value, with the sequence and with the list that `functions` answers, result, error and store
alike.  Making the sequence of any steps succeeds, from any store, and does nothing but count the
functions made.  Whenever they were made, the sequence of two lists of steps is the one of the first
list followed, if that has a result, by the one of the second. -/
theorem sequences_compose (n : Nat) (env : Env) :
    let apply := (Evaluator.level n).apply env
    (∀ id steps v,
      apply (.native .freduce) [v, .sequence id steps] = apply (.sequence id steps) [v] ∧
      (do
        let fs ← apply (.native (.unary .functions)) [.sequence id steps]
        apply (.native .freduce) [v, fs]) = apply (.sequence id steps) [v]) ∧
    (∀ captured steps s, ∃ f, f.IsSequenceOf captured steps ∧
      Eval.makeSequence captured steps s =
        (.ok f, { s with functions := s.functions + steps.length + 1 })) ∧
    ∀ captured first second (f g h : Value), f.IsSequenceOf captured (first ++ second) →
      g.IsSequenceOf captured first → h.IsSequenceOf captured second →
        ∀ v, apply f [v] = (do
          let w ← apply g [v]
          apply h [w]) := by
  intro apply
  refine ⟨fun id steps v => ?_, fun captured steps s => ?_, ?_⟩
  · cases n with
    | zero => exact ⟨rfl, rfl⟩
    | succ n =>
      -- all three are the fold over the steps
      refine ⟨Evaluator.apply_freduce id steps v, ?_⟩
      show ((Evaluator.level (n + 1)).apply env (.native (.unary .functions)) _ >>= _) = _
      rw [Evaluator.apply_functions, pure_bind]
      exact Evaluator.apply_freduce_list steps v
  · have hmake := Eval.makeSequence_apply captured steps s
    exact ⟨_, ⟨s, _, hmake⟩, hmake⟩
  · intro captured first second f g h hf hg hh v
    exact Evaluator.apply_append hf hg hh n env v

/-- Adding one and doubling, as one sequence and as two that were made later. -/
theorem compose_successor_and_double :
    let env := (globalEnv .auto).1
    let dot : Expr := .sym placeholder .nowhere
    let next : Expr := .call (.sym "+" .nowhere) [dot, .lit (.int 1) .nowhere] .nowhere
    let double : Expr := .call (.sym "*" .nowhere) [dot, .lit (.int 2) .nowhere] .nowhere
    let both : Value := .sequence ⟨2⟩ (stepFunctions env [next, double] 0)
    let one : Value := .sequence ⟨4⟩ (stepFunctions env [next] 3)
    let other : Value := .sequence ⟨6⟩ (stepFunctions env [double] 5)
    let apply := (Evaluator.level 5).apply env
    apply both [.int 3] = (do
      let w ← apply one [.int 3]
      apply other [w]) ∧
    (apply both [.int 3] (globalEnv .auto).2).1 = .ok (.int 8) := by
  intro env dot next double both one other apply
  obtain ⟨-, -, hcompose⟩ := sequences_compose 5 env
  have hboth : both.IsSequenceOf env [next, double] := ⟨_, _, Eval.makeSequence_apply env _ .empty⟩
  have hone : one.IsSequenceOf env [next] :=
    ⟨_, _, Eval.makeSequence_apply env _ { Store.empty with functions := 3 }⟩
  have hother : other.IsSequenceOf env [double] :=
    ⟨_, _, Eval.makeSequence_apply env _ { Store.empty with functions := 5 }⟩
  exact ⟨hcompose env [next] [double] both one other hboth hone hother (.int 3), rfl⟩

end PipeLang
