import PipeLang.Proofs.Frames
import PipeLang.Proofs.Rejection
import PipeLang.Proofs.Strategies

/-!
# Compound assignment in chains

What a chain without escapes comes to is decided by where its compound pipes stand and by its head
(`compound_assignment_by_shape`):

* two compound pipes are a fault, whatever the head (`pipe_of_two_compounds`);
* a chain that starts with the placeholder is a function (`pipe_of_placeholder`);
* a compound pipe must come first, after a name (`pipe_of_bad_target`), and then the value of the
  chain is written to that name at the end (`pipe_of_named_target`);
* any other chain is just evaluated (`pipe_of_no_compound`).

Where a chain is a fault or a function, that is decided without evaluating anything: the outcome is
the same for every evaluator, and the bindings are what they were.
-/

namespace PipeLang

/-- Whether the expression is a bare name. -/
def Expr.isSymbol : Expr → Bool
  | .sym .. => true
  | _ => false

/-- There is one function for each step. -/
theorem length_stepFunctions (env : Env) (steps : List Expr) (i : Nat) :
    (stepFunctions env steps i).length = steps.length := by
  induction steps generalizing i with
  | nil => rfl
  | cons e rest ih => rw [stepFunctions, List.length_cons, ih, List.length_cons]

/-! ### Targets -/

theorem Expr.targetName_sym {name : String} (h : name ≠ placeholder) (span : Span) :
    (Expr.sym name span).targetName = .ok name := by
  rw [Expr.targetName, if_neg h]

/-- Only a name can be a target, and the error quotes what is there instead. -/
theorem Expr.targetName_of_not_isSymbol {e : Expr} (h : ¬ e.isSymbol) :
    e.targetName = .error (.assignTarget e.print) := by
  cases e <;> simp_all [Expr.isSymbol, Expr.targetName]

/-- What stands before a pipe that is not the first is a call, and no bare name. -/
theorem Expr.not_isSymbol_piped {head : Expr} {pipes : List Pipe}
    (h : pipes ≠ [] ∨ ¬ head.isSymbol) : ¬ (head.piped pipes).isSymbol := by
  rcases List.eq_nil_or_concat pipes with rfl | ⟨before, last, rfl⟩
  · exact h.resolve_left fun hne => hne rfl
  · rw [List.concat_eq_append, Expr.piped, List.foldl_append]
    exact Bool.false_ne_true

/-! ### Chains without escapes -/

namespace Evaluator

open Pipe

variable (ev : Evaluator) {env : Env} {isLazy : Bool} {head : Expr} {pipes before : List Pipe}
  {last : Pipe}

/-- A chain with at most one compound pipe is unrolled as it stands. -/
theorem unroll_of_no_escapes (hhead : head.pipeKind? = none)
    (hnone : escapes (before ++ [last]) = []) (h : compounds (before ++ [last]) ≤ 1) :
    ev.unroll env (some last.op.kind) (head.piped before) last.right =
      pure ⟨head :: (before ++ [last]).map Pipe.step, target? head (before ++ [last])⟩ := by
  rw [ev.unroll_piped hhead before last h, hnone, ← stepsWith_of_escapes_eq_nil hnone []]
  rfl

/-- A second compound operator is an error, before anything is evaluated. -/
theorem pipe_of_two_compounds (hnone : escapes (before ++ [last]) = [])
    (h : 2 ≤ compounds (before ++ [last])) :
    ev.pipe env (some last.op.kind) isLazy (head.piped before) last.right =
      Eval.fail (.chain .secondCompound) := by
  obtain ⟨first, p, rest, hsplit, hp, hrest⟩ := exists_second_compound h
  rw [hsplit, escapes_append, List.append_eq_nil_iff] at hnone
  rw [pipe, ev.unroll_of_second hsplit hp hrest, hnone.2]
  rfl

/-- A chain whose head is the placeholder is a functional sequence, and the target plays no part. -/
theorem pipe_of_placeholder (hhead : head.isPlaceholder) (hkind : head.pipeKind? = none)
    (hnone : escapes (before ++ [last]) = []) (h : compounds (before ++ [last]) ≤ 1) :
    ev.pipe env (some last.op.kind) isLazy (head.piped before) last.right =
      Eval.makeSequence env ((before ++ [last]).map Pipe.step) := by
  rw [pipe, ev.unroll_of_no_escapes hkind hnone h, pure_bind]
  dsimp only
  rw [if_pos hhead]

/-- A chain that is no function is evaluated, and assigned to its target. -/
theorem pipe_of_not_placeholder (hhead : ¬ head.isPlaceholder) (hkind : head.pipeKind? = none)
    (hnone : escapes (before ++ [last]) = []) (h : compounds (before ++ [last]) ≤ 1) :
    ev.pipe env (some last.op.kind) isLazy (head.piped before) last.right =
      ev.evalUnrolled env isLazy
        ⟨head :: (before ++ [last]).map Pipe.step, target? head (before ++ [last])⟩ := by
  rw [pipe, ev.unroll_of_no_escapes hkind hnone h, pure_bind]
  dsimp only
  rw [if_neg hhead]

/-- A chain without a target comes to the value of its last step. -/
theorem pipe_of_no_compound (hhead : ¬ head.isPlaceholder) (hkind : head.pipeKind? = none)
    (hnone : escapes (before ++ [last]) = []) (h : compounds (before ++ [last]) = 0) :
    ev.pipe env (some last.op.kind) isLazy (head.piped before) last.right =
      ev.evalChain env isLazy (head :: (before ++ [last]).map Pipe.step) := by
  rw [ev.pipe_of_not_placeholder hhead hkind hnone (by omega), target?_eq_none h, evalUnrolled]

/-- A target that is no name is found out before the chain is evaluated. -/
theorem pipe_of_bad_target (hhead : ¬ head.isPlaceholder) (hkind : head.pipeKind? = none)
    (hnone : escapes (before ++ [last]) = []) (h : compounds (before ++ [last]) ≤ 1)
    {target : Expr} (htarget : target? head (before ++ [last]) = some target)
    (hbad : ¬ target.isSymbol) :
    ev.pipe env (some last.op.kind) isLazy (head.piped before) last.right =
      Eval.fail (.assignTarget target.print) := by
  rw [ev.pipe_of_not_placeholder hhead hkind hnone h, htarget, evalUnrolled]
  dsimp only
  rw [Expr.targetName_of_not_isSymbol hbad]
  rfl

/-- The value of the chain is assigned to the name at its head. -/
theorem pipe_of_named_target {name : String} {span : Span} (hname : name ≠ placeholder)
    (hnone : escapes (before ++ [last]) = []) (h : compounds (before ++ [last]) ≤ 1)
    (htarget : target? (.sym name span) (before ++ [last]) = some (.sym name span)) :
    ev.pipe env (some last.op.kind) isLazy ((Expr.sym name span).piped before) last.right = (do
      let v ← ev.evalChain env isLazy (.sym name span :: (before ++ [last]).map Pipe.step)
      Eval.update fun s => s.define env name v
      pure v) := by
  have hhead : ¬ (Expr.sym name span).isPlaceholder := by
    simpa [Expr.isPlaceholder] using hname
  rw [ev.pipe_of_not_placeholder hhead rfl hnone h, htarget, evalUnrolled]
  dsimp only
  rw [Expr.targetName_sym hname]
  rfl

/-! ### Chains as expressions -/

/-- A chain whose last operator means a pipe is that pipe. -/
theorem eval_piped_append {s : Store}
    (hbound : s.resolve env last.op.name = .ok (.value (.special (.pipe last.op)))) (n : Nat) :
    (level (n + 2)).eval env (head.piped (before ++ [last])) s =
      (level (n + 1)).pipe env (some last.op.kind) last.op.isLazy (head.piped before) last.right
        s := by
  have hcallee : (level (n + 1)).eval env (.sym last.op.name last.opSpan) s =
      (.ok (.special (.pipe last.op)), s) := (level n).lookup_of_value hbound
  rw [Expr.piped, List.foldl_append]
  exact Eval.bind_of_ok hcallee

/-- Not even the operator is evaluated at the lowest levels. -/
theorem eval_piped_of_le {s : Store} {n : Nat} (hn : n ≤ 1) (hne : pipes ≠ []) :
    (level n).eval env (head.piped pipes) s = (.outOfFuel, s) := by
  rcases List.eq_nil_or_concat pipes with rfl | ⟨init, last, rfl⟩
  · exact absurd rfl hne
  rw [List.concat_eq_append, Expr.piped, List.foldl_append]
  obtain rfl | rfl : n = 0 ∨ n = 1 := by omega
  · rfl
  · rfl

end Evaluator

/-! ### All shapes -/

open Pipe in
/-- A chain of pipes without right sides in parentheses, in any environment, evaluated in any way:
two compound pipes are a malformed chain; otherwise a chain that starts with the placeholder is a
sequence of as many functions as it has pipes; otherwise a compound pipe that does not come first,
or not after a name, is an invalid target; in none of these cases does the outcome depend on what
evaluates expressions, and at most identities of functions are used up.  If the compound pipe comes
first, after a name, the chain is evaluated and, if it has a value, the own frame binds the name to
it in the end; if it fails, and also if there is no compound pipe, there is nothing more to it than
the evaluation of the chain. -/
theorem compound_assignment_by_shape (env : Env) (isLazy : Bool) {head : Expr}
    (hkind : head.pipeKind? = none) (before : List Pipe) (last : Pipe) {pipes : List Pipe}
    (hpipes : pipes = before ++ [last]) (hparen : ∀ p ∈ pipes, p.right.isParen = false) :
    let run (ev : Evaluator) :=
      ev.pipe env (some last.op.kind) isLazy (head.piped before) last.right
    let chain (ev : Evaluator) := ev.evalChain env isLazy (head :: pipes.map step)
    (2 ≤ compounds pipes → ∀ ev s, run ev s = (.error (.chain .secondCompound), s)) ∧
    (compounds pipes ≤ 1 → head.isPlaceholder → ∀ ev s,
      let functions := stepFunctions env (pipes.map step) s.functions
      run ev s = (.ok (.sequence ⟨s.functions + pipes.length⟩ functions),
        { s with functions := s.functions + pipes.length + 1 }) ∧
      functions.length = pipes.length) ∧
    (compounds pipes ≤ 1 → ¬ head.isPlaceholder → ∀ first p rest, pipes = first ++ p :: rest →
      p.op = .compound → (first ≠ [] ∨ ¬ head.isSymbol) → ∀ ev s,
        run ev s = (.error (.assignTarget (head.piped first).print), s)) ∧
    (∀ name span p rest, head = .sym name span → name ≠ placeholder → pipes = p :: rest →
      p.op = .compound → compounds rest = 0 →
        (∀ ev s t,
          (∀ v, chain ev s = (.ok v, t) → run ev s = (.ok v, t.define env name v)) ∧
          (∀ err, chain ev s = (.error err, t) → run ev s = (.error err, t))) ∧
        ∀ n s v t, env.own.index < s.frames.size → run (.level n) s = (.ok v, t) →
          t.ownBinding? env name = some (.value v)) ∧
    (compounds pipes = 0 → ¬ head.isPlaceholder → ∀ ev, run ev = chain ev) := by
  intro run chain
  subst hpipes
  have hnone : escapes (before ++ [last]) = [] := by
    rw [escapes, List.map_eq_nil_iff, List.filter_eq_nil_iff]
    intro p hp
    simp [isEscaped, hparen p hp]
  refine ⟨?_, ?_, ?_, ?_, ?_⟩
  -- two compound pipes
  · intro htwo ev s
    exact congrFun (ev.pipe_of_two_compounds hnone htwo) s
  -- a function
  · intro hone hhead ev s
    refine ⟨?_, by rw [length_stepFunctions, List.length_map]⟩
    show ev.pipe env _ isLazy _ _ s = _
    rw [ev.pipe_of_placeholder hhead hkind hnone hone, Eval.makeSequence_apply, List.length_map]
  -- no place to write to
  · intro hone hhead first p rest hsplit hp hbad ev s
    have hfirst : compounds first = 0 := by
      have hcount : compounds (first ++ p :: rest) = compounds first + compounds (p :: rest) :=
        List.countP_append
      rw [compounds_cons_of_compound hp, ← hsplit] at hcount
      omega
    have htarget : target? head (before ++ [last]) = some (head.piped first) := by
      rw [hsplit]
      exact target?_append_cons hfirst hp rest
    exact congrFun (ev.pipe_of_bad_target hhead hkind hnone hone htarget
      (Expr.not_isSymbol_piped hbad)) s
  -- a name to write to
  · rintro name span p rest rfl hname hsplit hp hrest
    have hcount : compounds (before ++ [last]) = compounds rest + 1 := by
      rw [hsplit, compounds_cons_of_compound hp]
    have hone : compounds (before ++ [last]) ≤ 1 := by omega
    have htarget : target? (.sym name span) (before ++ [last]) = some (.sym name span) := by
      rw [hsplit]
      exact if_pos hp
    have hrun : ∀ ev, run ev = (do
        let v ← chain ev
        Eval.update fun s => s.define env name v
        pure v) := fun ev => ev.pipe_of_named_target hname hnone hone htarget
    refine ⟨fun ev s t => ⟨fun v hv => ?_, fun err herr => ?_⟩, fun n s v t hown ht => ?_⟩
    · rw [hrun ev, Eval.bind_of_ok hv]
      rfl
    · rw [hrun ev, Eval.bind_of_error herr]
    -- the frame that is written in the end was there from the beginning
    · have hsize := Evaluator.size_frames_le_evalChain n env isLazy
        (.sym name span :: (before ++ [last]).map step) s
      rw [hrun (.level n), Eval.bind_apply] at ht
      show t.binding? env.own name = _
      rcases hchain : chain (.level n) s with ⟨r, u⟩
      rw [show Evaluator.evalChain _ _ _ _ s = (r, u) from hchain] at hsize
      rw [hchain] at ht
      cases r with
      | ok w =>
        cases ht
        exact Store.binding?_bind_self u env.own name _ (Nat.lt_of_lt_of_le hown hsize)
      | error | outOfFuel => cases ht
  -- nothing to write
  · intro hzero hhead ev
    exact ev.pipe_of_no_compound hhead hkind hnone hzero

/-- The name `x` is bound to 5: a compound pipe adds one to it, a second one spoils the chain, and
one that does not come first has no target. -/
theorem increment_in_place :
    let env : Env := ⟨⟨0⟩, [], .eager⟩
    let s : Store := Store.empty.addFrame
      [("+", .value (.native (.binary .add))), ("x", .value (.int 5))]
    let x : Expr := .sym "x" .nowhere
    let pipe (op : PipeOp) : Pipe :=
      ⟨op, .nowhere, .call (.sym "+" .nowhere) [.lit (.int 1) .nowhere] .nowhere, .nowhere⟩
    let run (before : List Pipe) (last : PipeOp) := (Evaluator.level 5).pipe env (some last.kind)
      true (x.piped before) (pipe last).right s
    (run [] .compound).1 = .ok (.int 6) ∧
    (run [] .compound).2.ownBinding? env "x" = some (.value (.int 6)) ∧
    run [pipe .compound, pipe .tee] .compound = (.error (.chain .secondCompound), s) ∧
    run [pipe .tee] .compound = (.error (.assignTarget "x %T>% +(1)"), s) := by
  intro env s x pipe run
  have hhead : x.pipeKind? = none := rfl
  have hshape := fun before last => compound_assignment_by_shape env true hhead before (pipe last)
    (Eq.refl (before ++ [pipe last]))
  have hvalue : (run [] .compound).1 = .ok (.int 6) := rfl
  refine ⟨hvalue, ?_, ?_, ?_⟩
  · obtain ⟨-, -, -, hnamed, -⟩ := hshape [] .compound (by decide)
    obtain ⟨-, hbound⟩ := hnamed "x" _ _ [] rfl (by decide) rfl rfl rfl
    exact hbound 5 s (.int 6) _ (Nat.zero_lt_succ _) (Prod.ext hvalue rfl)
  · obtain ⟨htwo, -⟩ := hshape [pipe .compound, pipe .tee] .compound (by decide)
    exact htwo (by decide) _ s
  · obtain ⟨-, -, hbad, -⟩ := hshape [pipe .tee] .compound (by decide)
    have hprint : (x.piped [pipe .tee]).print = "x %T>% +(1)" := by decide +kernel
    rw [← hprint]
    exact hbad (by decide) (by decide) [pipe .tee] _ [] rfl rfl (.inl (by decide)) _ s

end PipeLang
