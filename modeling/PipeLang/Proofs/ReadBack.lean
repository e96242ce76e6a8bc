import PipeLang.Program
import PipeLang.Proofs.Compound

/-!
# Reading an assigned name

What `name <- e` has assigned, or a chain that begins with `name %<>%`, is what the name stands for
afterwards, unless it is a qualified name (`assigned_name_reads_back`).

Both end with one write, to the own frame and under the whole name, of the value that they return
(`Evaluator.exists_of_eval_assign`, `Evaluator.exists_of_pipe`).  A plain name is looked up in the
own frame first, so this is what is found (`Evaluator.eval_sym_define`).  A qualified name is looked
up in the root frame, under what follows the colons; that is a shorter name, so no such write is
ever found (`Store.resolve_define_of_qualified`).
-/

namespace PipeLang

/-! ### Names after a write -/

/-- What follows the colons of a qualified name is another name. -/
theorem ne_of_unqualified? {name bare : String} (h : unqualified? name = some bare) :
    bare ≠ name := by
  obtain ⟨before, hne, happend⟩ := unqualified?_suffix h
  rintro rfl
  exact hne (List.self_eq_append_left.1 happend)

variable {s t u : Store} {env : Env} {name : String} {v : Value}

/-- A qualified name is looked up by its last part, and so not where it was written. -/
theorem Store.resolve_define_of_qualified (h : unqualified? name ≠ none) (u : Store) (env : Env)
    (v : Value) : (u.define env name v).resolve env name = u.resolve env name := by
  obtain ⟨bare, hbare⟩ := Option.ne_none_iff_exists'.1 h
  unfold Store.resolve
  rw [hbare]
  dsimp only
  rw [Store.define, Store.binding?_bind_of_ne (.inr (ne_of_unqualified? hbare))]

namespace Evaluator

/-- A plain name that has just been written is read in its own frame. -/
theorem eval_sym_define (hown : env.own.index < u.frames.size) (hname : unqualified? name = none)
    (v : Value) (k : Nat) (span : Span) :
    (level (k + 1)).eval env (.sym name span) (u.define env name v) =
      (.ok v, u.define env name v) := by
  have hresolve : (u.define env name v).resolve env name = .ok (.value v) := by
    unfold Store.resolve
    rw [hname]
    dsimp only
    rw [Store.find?_define_self hown]
    rfl
  show (level k).lookup env name _ = _
  rw [lookup, Eval.bind_of_ok (Eval.read_apply _ _), hresolve]
  rfl

/-! ### The writes -/

/-- An assignment evaluates its right side and then writes the value. -/
theorem exists_of_eval_assign {n : Nat} {value : Expr} {span all : Span}
    (h : (level n).eval env (.assign (.sym name span) value .inner all) s = (.ok v, t)) :
    ∃ m u, m ≤ n ∧ (level m).eval env value s = (.ok v, u) ∧ t = u.define env name v := by
  cases n with
  | zero => cases h
  | succ n =>
    obtain ⟨w, u, hvalue, h⟩ := Eval.bind_eq_ok_iff.1 h
    cases h
    exact ⟨n, u, Nat.le_succ n, hvalue, rfl⟩

/-- What unrolling a chain comes to whose first pipe is compound: its left side is the target. -/
theorem exists_of_unroll {ev : Evaluator} {head : Expr} {before rest : List Pipe} {p last : Pipe}
    {unrolled : Unrolled} (hhead : head.pipeKind? = none) (hsplit : before ++ [last] = p :: rest)
    (hp : p.op = .compound)
    (h : ev.unroll env (some last.op.kind) (head.piped before) last.right s = (.ok unrolled, t)) :
    unrolled.target? = some head ∧ ∃ steps, unrolled.exprs = head :: steps := by
  rw [unroll, Chain.ofPipe_piped hhead, hsplit] at h
  obtain ⟨⟨steps, target?⟩, u, hlinks, h⟩ := Eval.bind_eq_ok_iff.1 h
  cases h
  rw [Pipe.linksOf, unrollLinks] at hlinks
  obtain ⟨⟨others, other?⟩, u, -, hlinks⟩ := Eval.bind_eq_ok_iff.1 hlinks
  obtain ⟨right, w, -, hlinks⟩ := Eval.bind_eq_ok_iff.1 hlinks
  have hkind : (p.link head).kind = .compound := congrArg PipeOp.kind hp
  rw [hkind] at hlinks
  cases other? with
  | none =>
    cases hlinks
    exact ⟨rfl, _, rfl⟩
  | some other => cases hlinks

/-- A chain that begins with a compound pipe after a name is unrolled and evaluated, and then its
value is written. -/
theorem exists_of_pipe {ev : Evaluator} {before rest : List Pipe} {p last : Pipe} {isLazy : Bool}
    {span : Span} (hname : name ≠ placeholder) (hsplit : before ++ [last] = p :: rest)
    (hp : p.op = .compound)
    (h : ev.pipe env (some last.op.kind) isLazy ((Expr.sym name span).piped before) last.right s =
      (.ok v, t)) :
    ∃ u, (do
      let unrolled ←
        ev.unroll env (some last.op.kind) ((Expr.sym name span).piped before) last.right
      ev.evalChain env isLazy unrolled.exprs) s = (.ok v, u) ∧ t = u.define env name v := by
  obtain ⟨unrolled, w, hunroll, h⟩ := Eval.bind_eq_ok_iff.1 h
  obtain ⟨htarget, steps, hexprs⟩ := exists_of_unroll rfl hsplit hp hunroll
  -- the head is a name, and so the target
  have hhead : ¬ (Expr.sym name span).isPlaceholder := by
    simpa [Expr.isPlaceholder] using hname
  rw [hexprs] at h
  dsimp only at h
  rw [if_neg hhead, evalUnrolled, htarget] at h
  dsimp only at h
  rw [Expr.targetName_sym hname] at h
  obtain ⟨target, w', htargetName, h⟩ := Eval.bind_eq_ok_iff.1 h
  cases htargetName
  obtain ⟨x, u, hchain, h⟩ := Eval.bind_eq_ok_iff.1 h
  cases h
  exact ⟨u, Eval.bind_eq_ok_iff.2 ⟨unrolled, w, hunroll, hchain⟩, rfl⟩

end Evaluator

/-! ### Assignments -/

/-- In this store and environment the request assigns to the name what the computation comes to:
as `name <- e`, or as a chain that begins with `name %<>%`, given as a pipe or written out. -/
inductive Request.Assigns (s : Store) (env : Env) (name : String) :
    Request → (Evaluator → Eval Value) → Prop
  | arrow (value : Expr) (span all : Span) :
      Assigns s env name (.eval env (.assign (.sym name span) value .inner all))
        fun ev => ev.eval env value
  | pipe {before rest : List Pipe} {p last : Pipe} (hname : name ≠ placeholder)
      (hsplit : before ++ [last] = p :: rest) (hp : p.op = .compound) (isLazy : Bool)
      (span : Span) :
      Assigns s env name
        (.pipe env (some last.op.kind) isLazy ((Expr.sym name span).piped before) last.right)
        fun ev => do
          let unrolled ←
            ev.unroll env (some last.op.kind) ((Expr.sym name span).piped before) last.right
          ev.evalChain env isLazy unrolled.exprs
  | chain {before rest : List Pipe} {p last : Pipe} (hname : name ≠ placeholder)
      (hsplit : before ++ [last] = p :: rest) (hp : p.op = .compound) (span : Span)
      (hbound : s.resolve env last.op.name = .ok (.value (.special (.pipe last.op)))) :
      Assigns s env name (.eval env ((Expr.sym name span).piped (before ++ [last])))
        fun ev => do
          let unrolled ←
            ev.unroll env (some last.op.kind) ((Expr.sym name span).piped before) last.right
          ev.evalChain env last.op.isLazy unrolled.exprs

/-- Whichever way it assigns, the last thing that is done is to write the value. -/
theorem Request.Assigns.exists_define {r : Request} {value : Evaluator → Eval Value}
    (h : r.Assigns s env name value) {n : Nat} (hrun : r.run (.level n) s = (.ok v, t)) :
    ∃ m u, m ≤ n ∧ value (.level m) s = (.ok v, u) ∧ t = u.define env name v := by
  cases h with
  | arrow value span all => exact Evaluator.exists_of_eval_assign hrun
  | pipe hname hsplit hp isLazy span =>
    obtain ⟨u, hvalue, ht⟩ := Evaluator.exists_of_pipe hname hsplit hp hrun
    exact ⟨n, u, Nat.le_refl n, hvalue, ht⟩
  | @chain before rest p last hname hsplit hp span hbound =>
    obtain ⟨k, rfl⟩ | hlow : (∃ k, n = k + 2) ∨ n ≤ 1 := by
      rcases Nat.lt_or_ge n 2 with hlt | hge
      · exact .inr (by omega)
      · exact .inl ⟨n - 2, by omega⟩
    · rw [Request.run, Evaluator.eval_piped_append hbound] at hrun
      obtain ⟨u, hvalue, ht⟩ := Evaluator.exists_of_pipe hname hsplit hp hrun
      exact ⟨k + 1, u, Nat.le_succ _, hvalue, ht⟩
    · rw [Request.run, Evaluator.eval_piped_of_le hlow (by simp)] at hrun
      cases hrun

theorem Request.size_frames_le_run (r : Request) (n : Nat) (s : Store) :
    s.frames.size ≤ (r.run (.level n) s).2.frames.size :=
  (Invariant.kept_framed.store_of_run s.frames.size (fun h => h)
    (r.good_of_forall (fun _ => trivial) fun _ => trivial)
    ((Invariant.lawful_framed _).written r) (Nat.le_refl _)).1

/-- A name that is assigned a value stands for it afterwards, if it is a plain name.  A qualified
name stands for what it would have stood for without the write. -/
theorem assigned_name_reads_back {r : Request} {value : Evaluator → Eval Value}
    (h : r.Assigns s env name value) (hown : env.own.index < s.frames.size) {n : Nat}
    (hrun : r.run (.level n) s = (.ok v, t)) :
    ∃ m u, m ≤ n ∧ value (.level m) s = (.ok v, u) ∧ t = u.define env name v ∧
      (unqualified? name = none → ∀ k span,
        (Evaluator.level (k + 1)).eval env (.sym name span) t = (.ok v, t)) ∧
      (unqualified? name ≠ none → t.resolve env name = u.resolve env name) := by
  obtain ⟨m, u, hm, hvalue, rfl⟩ := h.exists_define hrun
  have hsize := r.size_frames_le_run n s
  rw [hrun, Store.define, Store.size_frames_bind] at hsize
  refine ⟨m, u, hm, hvalue, rfl, fun hname k span => ?_, fun hname => ?_⟩
  · exact Evaluator.eval_sym_define (Nat.lt_of_lt_of_le hown hsize) hname v k span
  · exact Store.resolve_define_of_qualified hname u env v

/-- A plain name is negated in place by a chain, and a qualified one is given a value in vain. -/
theorem negated_name_reads_back :
    let env : Env := ⟨⟨1⟩, [⟨0⟩], .eager⟩
    let s : Store := (Store.empty.addFrame [("%<>%", .value (.special (.pipe .compound))),
      ("neg", .value (.native (.unary .neg)))]).addFrame [("x", .value (.int 5))]
    let negate : Pipe := ⟨.compound, .nowhere, .sym "neg" .nowhere, .nowhere⟩
    let run := (Evaluator.level 4).eval env ((Expr.sym "x" .nowhere).piped [negate]) s
    let assignment : Expr :=
      .assign (.sym "base::neg" .nowhere) (.lit (.int 1) .nowhere) .inner .nowhere
    run.1 = .ok (.int (-5)) ∧
    (Evaluator.level 1).eval env (.sym "x" .nowhere) run.2 = (.ok (.int (-5)), run.2) ∧
    ((Evaluator.level 2).eval env assignment s).2.resolve env "base::neg" =
      s.resolve env "base::neg" := by
  intro env s negate run assignment
  have hvalue : run.1 = .ok (.int (-5)) := by
    dsimp only [run, env, s, negate]
    rfl
  refine ⟨hvalue, ?_, ?_⟩
  · have hbound : s.resolve env negate.op.name = .ok (.value (.special (.pipe negate.op))) := by
      dsimp only [s, env, negate]
      rfl
    -- once by a compound chain, and once by an arrow to a qualified name
    have hassigns : (Request.eval env ((Expr.sym "x" .nowhere).piped [negate])).Assigns s env "x"
        _ := .chain (p := negate) (by decide) (List.nil_append _) rfl .nowhere hbound
    obtain ⟨_, _, _, _, _, hplain, _⟩ :=
      assigned_name_reads_back hassigns (by decide) (Prod.ext hvalue (Eq.refl run.2))
    exact hplain rfl 0 .nowhere
  · have hassigns : (Request.eval env assignment).Assigns s env "base::neg" _ :=
      .arrow (.lit (.int 1) .nowhere) .nowhere .nowhere
    have hrun : (Request.eval env assignment).run (.level 2) s =
        (.ok (.int 1), s.define env "base::neg" (.int 1)) := rfl
    obtain ⟨m, u, -, hliteral, -, -, hqualified⟩ :=
      assigned_name_reads_back hassigns (by decide) hrun
    cases m with
    | zero => cases hliteral
    | succ m =>
      cases hliteral
      exact hqualified (by decide)

/-- A chain writes a qualified name to the own frame, and the name stands for the builtin as
before. -/
theorem qualified_name_is_not_assigned :
    let env := (globalEnv .auto).1
    let pipe : Pipe := ⟨.compound, .nowhere, .call (.sym "is_null" .nowhere) [] .nowhere, .nowhere⟩
    let run := (Evaluator.level 4).eval env ((Expr.sym "base::length" .nowhere).piped [pipe])
      (globalEnv .auto).2
    run.1 = .ok (.bool false) ∧
    run.2.ownBinding? env "base::length" = some (.value (.bool false)) ∧
    ((Evaluator.level 1).eval env (.sym "base::length" .nowhere) run.2).1 =
      .ok (.native (.unary .length)) :=
  ⟨rfl, rfl, rfl⟩

end PipeLang
