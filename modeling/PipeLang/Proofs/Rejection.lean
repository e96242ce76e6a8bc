import PipeLang.Program
import PipeLang.Proofs.Unrolling

/-!
# Chains with two compound pipes

A chain is unrolled from its last pipe to its first, and the second compound pipe on this way ends
it (`second_compound_is_rejected`).  The right sides in parentheses behind that pipe have been
evaluated by then, and so has its own, which is evaluated before the pipe is looked at; those to
its left are not, whatever they are.

What decides is the part of the chain from that pipe on (`unrollLinks_of_second`).  Links to the
left of links that are never unrolled to the end add nothing (`unrollLinks_append_of_fails`), so
the head of the chain may be any expression, also one that is a pipe itself.
-/

namespace PipeLang

namespace Pipe

variable {head : Expr} {p : Pipe} {pipes rest : List Pipe}

/-- The second compound pipe from the end. -/
theorem exists_second_compound (h : 2 ≤ compounds pipes) : ∃ first p rest,
    pipes = first ++ p :: rest ∧ p.op = .compound ∧ compounds rest = 1 := by
  induction pipes with
  | nil => exact absurd h (by simp)
  | cons p rest ih =>
    by_cases hrest : 2 ≤ compounds rest
    · obtain ⟨first, q, others, rfl, hq, hothers⟩ := ih hrest
      exact ⟨p :: first, q, others, rfl, hq, hothers⟩
    · have hp : p.op = .compound := by
        refine Decidable.not_not.1 fun hp => ?_
        rw [compounds_cons_of_ne hp] at h
        exact hrest h
      rw [compounds_cons_of_compound hp] at h
      exact ⟨[], p, rest, rfl, hp, by omega⟩

end Pipe

namespace Chain

/-- The links of an expression come before those that follow it. -/
theorem exists_links_leading (e : Expr) (links : List Link) :
    ∃ more, (leading e links).links = more ++ links := by
  induction e, links using leading.induct with
  | case1 links e hkind => exact ⟨[], by rw [leading_of_none hkind]; rfl⟩
  | case2 links kind func left right span hkind ih =>
    obtain ⟨more, hmore⟩ := ih
    refine ⟨more ++ [⟨kind, left, right⟩], ?_⟩
    rw [leading_of_some hkind, hmore, List.append_assoc]
    rfl
  | case3 e links kind hkind hcall =>
    have hcall' : ∀ func left right span, e ≠ .call func [left, right] span :=
      fun func left right span h => hcall func left right span h
    exact ⟨[], by rw [leading_of_other hkind hcall']; rfl⟩

end Chain

namespace Evaluator

open Pipe

variable (ev : Evaluator) {env : Env} {head left : Expr} {p last : Pipe}
  {pipes before rest : List Pipe}

/-- Some work, and then a failure. -/
theorem unrollLinks_append_of_fails {α : Type} {work : Eval α} {e : EvalError} {links : List Link}
    (h : ev.unrollLinks env links = (do let _ ← work; Eval.fail e)) (more : List Link) :
    ev.unrollLinks env (more ++ links) = (do let _ ← work; Eval.fail e) := by
  induction more with
  | nil => exact h
  | cons link more ih =>
    rw [List.cons_append, unrollLinks, ih, bind_assoc]
    rfl

/-- The links from the second compound pipe on: the escapes are evaluated, that of this pipe as
the last one, and then the pipe is rejected. -/
theorem unrollLinks_of_second (left : Expr) (hp : p.op = .compound) (hrest : compounds rest = 1) :
    ev.unrollLinks env (linksOf left (p :: rest)) = (do
      let _ ← ev.spliceAll env (escapes (p :: rest)).reverse
      Eval.fail (.chain .secondCompound)) := by
  have hkind : (p.link left).kind = .compound := congrArg PipeOp.kind hp
  have hsome : compounds rest ≠ 0 := by omega
  obtain ⟨target, htarget⟩ := exists_target?_of_compounds_ne_zero hsome (left.pipedInto p)
  rw [linksOf, unrollLinks, ev.unrollLinks_linksOf (Nat.le_of_eq hrest), htarget, hkind]
  simp only [bind_assoc, pure_bind]
  by_cases hescaped : p.isEscaped
  · rw [escapes_cons_of_escaped hescaped, List.reverse_cons, spliceAll_append, spliceAll_singleton,
      operand_of_escaped ev hescaped]
    simp only [bind_assoc, pure_bind]
  · rw [escapes_cons_of_not_escaped hescaped, operand_of_not_escaped ev hescaped]
    simp only [pure_bind]

/-- A chain whose last links are rejected, whatever stands at its head. -/
theorem unroll_of_second {first : List Pipe} (hsplit : before ++ [last] = first ++ p :: rest)
    (hp : p.op = .compound) (hrest : compounds rest = 1) :
    ev.unroll env (some last.op.kind) (head.piped before) last.right = (do
      let _ ← ev.spliceAll env (escapes (p :: rest)).reverse
      Eval.fail (.chain .secondCompound)) := by
  obtain ⟨more, hmore⟩ := Chain.exists_links_leading head (linksOf head (before ++ [last]))
  have hlinks : (Chain.ofPipe last.op.kind (head.piped before) last.right).links =
      (more ++ linksOf head first) ++ linksOf (head.piped first) (p :: rest) := by
    rw [Chain.ofPipe_eq, hmore, hsplit, linksOf_append, List.append_assoc]
  rw [unroll]
  dsimp only
  rw [hlinks, ev.unrollLinks_append_of_fails (ev.unrollLinks_of_second (head.piped first) hp hrest),
    bind_assoc]
  rfl

end Evaluator

open Pipe in
/-- A chain with more than one compound pipe, unrolled: the right sides in parentheses behind the
second compound pipe from the end are evaluated, from the last one to the first, except those of
dollar pipes, and then that of this pipe; then the pipe is rejected.  So if those behind it all have
values, the chain is rejected in the store that they have left, or, if the right side of the
rejected pipe stands in parentheses too, in the store that this one has left, with its value in an
inline node; and if it fails, that is the failure of the chain.  Nothing else is evaluated. -/
theorem second_compound_is_rejected (ev : Evaluator) (env : Env) (head : Expr)
    (before : List Pipe) (last : Pipe) {pipes : List Pipe} (hpipes : pipes = before ++ [last])
    (h : 2 ≤ compounds pipes) :
    let run := ev.unroll env (some last.op.kind) (head.piped before) last.right
    ∃ first p rest, pipes = first ++ p :: rest ∧ p.op = .compound ∧ compounds rest = 1 ∧
      (run = do
        let _ ← ev.spliceAll env (escapes (p :: rest)).reverse
        Eval.fail (.chain .secondCompound)) ∧
      ∀ s nodes t, ev.spliceAll env (escapes rest).reverse s = (.ok nodes, t) →
        (p.right.isParen = false → run s = (.error (.chain .secondCompound), t)) ∧
        (p.right.isParen = true →
          (∀ v u, ev.eval env p.right t = (.ok v, u) →
            run s = (.error (.chain .secondCompound), u.addInline v)) ∧
          ∀ err u, ev.eval env p.right t = (.error err, u) → run s = (.error err, u)) := by
  intro run
  -- links are met from the right, so that this is the second compound one that is met
  obtain ⟨first, p, rest, rfl, hp, hrest⟩ := exists_second_compound h
  have hrun : run = (do
      let _ ← ev.spliceAll env (escapes (p :: rest)).reverse
      Eval.fail (.chain .secondCompound)) :=
    ev.unroll_of_second hpipes.symm hp hrest
  have hescaped : p.isEscaped = p.right.isParen := by simp [isEscaped, hp]
  refine ⟨first, p, rest, rfl, hp, hrest, hrun, fun s nodes t hbehind => ⟨fun hparen => ?_, ?_⟩⟩
  · rw [hrun, escapes_cons_of_not_escaped (by simp [hescaped, hparen]), Eval.bind_of_ok hbehind]
    rfl
  · intro hparen
    have hown : run s = (do
        let v ← ev.eval env p.right
        let _ ← Eval.splice v p.right.span
        Eval.fail (.chain .secondCompound)) t := by
      rw [hrun, escapes_cons_of_escaped (hescaped.trans hparen), List.reverse_cons,
        ev.spliceAll_append, ev.spliceAll_singleton, bind_assoc, Eval.bind_of_ok hbehind]
      simp only [bind_assoc, pure_bind]
    refine ⟨fun v u hv => ?_, fun err u herr => ?_⟩
    · rw [hown, Eval.bind_of_ok hv]
      rfl
    · rw [hown, Eval.bind_of_error herr]

open Pipe in
/-- The right side of the rejected pipe prints its line after the last one has been evaluated; that
of the first pipe, a name without a value, does no harm. -/
theorem rejected_after_two_escapes :
    let env := (globalEnv .auto).1
    let s := (globalEnv .auto).2
    let paren (e : Expr) : Expr := .paren e .nowhere
    let number (n : Int64) : Expr := .lit (.int n) .nowhere
    let shout : Expr := .call (.sym "print" .nowhere) [number 1] .nowhere
    let pipe (op : PipeOp) (right : Expr) : Pipe := ⟨op, .nowhere, paren right, .nowhere⟩
    let before : List Pipe := [pipe .tee (.sym "y" .nowhere), pipe .compound shout]
    2 ≤ compounds (before ++ [pipe .compound (number 2)]) ∧
    (Evaluator.level 5).unroll env (some .compound) ((Expr.sym "x" .nowhere).piped before)
      (paren (number 2)) s = (.error (.chain .secondCompound),
        ((s.addInline (.int 2)).print "1").addInline (.int 1)) := by
  intro env s paren number shout pipe before
  have htwo : 2 ≤ compounds (before ++ [pipe .compound (number 2)]) := by decide
  refine ⟨htwo, ?_⟩
  obtain ⟨first, p, rest, hsplit, hp, hrest, -, hruns⟩ := second_compound_is_rejected
    (.level 5) env (.sym "x" .nowhere) before (pipe .compound (number 2)) rfl htwo
  obtain ⟨rfl, rfl⟩ : p = pipe .compound shout ∧ rest = [pipe .compound (number 2)] := by
    -- the list has three links, and only the second one can be the one that is met
    rcases first with _ | ⟨a, _ | ⟨b, _ | ⟨c, first⟩⟩⟩
    · cases hsplit
      cases hp
    · cases hsplit
      exact ⟨rfl, rfl⟩
    · cases hsplit
      cases hrest
    · simp [before] at hsplit
  obtain ⟨-, hparen⟩ := hruns s _ (s.addInline (.int 2)) rfl
  exact (hparen rfl).1 (.int 1) ((s.addInline (.int 2)).print "1") rfl

/-- A chain `x %<>% (..) %<>% f`, in which nothing stands behind the rejected pipe that could be
evaluated: the right side of that pipe prints its line all the same, and if it fails, the chain is
not even found to be malformed. -/
theorem rejected_right_side_is_evaluated :
    let env := (globalEnv .auto).1
    let s := (globalEnv .auto).2
    let shout : Expr := .call (.sym "print" .nowhere) [.lit (.int 1) .nowhere] .nowhere
    let pipe (right : Expr) : Pipe := ⟨.compound, .nowhere, .paren right .nowhere, .nowhere⟩
    let run (right : Expr) := (Evaluator.level 5).unroll env (some .compound)
      ((Expr.sym "x" .nowhere).piped [pipe right]) (.sym "f" .nowhere) s
    (run shout).1 = .error (.chain .secondCompound) ∧ (run shout).2.printed = "1\n" ∧
    (run (.sym "y" .nowhere)).1 = .error (.unbound "y") := by
  refine ⟨rfl, ?_, rfl⟩
  decide +kernel

end PipeLang
