import PipeLang.Proofs.Ascent
import PipeLang.Proofs.Compound
import PipeLang.Proofs.Order
import PipeLang.Proofs.Placement
import PipeLang.Proofs.Strategies
import PipeLang.Proofs.Unwritten

/-!
# Grouped chains

The left part of a chain may be put into parentheses: what the whole comes to stays the same, an
error included, and the limit of the nesting is met in the same cases (`grouping_does_not_matter`).
The chain has to be `Groupable`, that is, its head and its steps are first-order.

The group is the head of the chain around it, and is a chain itself (`Evaluator.eval_piped`).

* On demand its stages are not made beside those of the chain around it, but when it is asked for,
  which is when the placeholder of the first stage is.  By then all the later stages are being
  evaluated, so the head is reached with as many demands as in the chain without the group
  (`TwoRuns.Ascent.exists_of_head`), and the way back leads over the same steps.  Only the stage
  that is deferred to the group has another one beside it (`TwoRuns.Ascent.group`).
* Step by step its own steps come first, as they do without it, and what it puts the placeholder
  back to is forgotten at once (`ends_evalSteps_group`).

On demand there is one more condition (`KeepsSteps`).  If the head asks for a placeholder that is
pending, anything may be evaluated before the steps are, and the names in them may have got other
values by then.  A step that turns out to be an assignment shows in which scope it stands, and so
whether there is a group (`grouping_matters_if_pending_rebinds`).
-/

namespace PipeLang

open Eval

/-- Whether the expression is a call. -/
def Expr.isCall : Expr → Bool
  | .call .. => true
  | _ => false

/-! ### Chains of calls -/

/-- Pipes of one standard operator with calls as their right sides. -/
def Pipe.AllDirect (op : PipeOp) (pipes : List Pipe) : Prop :=
  ∀ p ∈ pipes, p.op = op ∧ p.right.isCall

variable {s t u : Store} {env : Env} {op : PipeOp} {head : Expr} {pipes before after : List Pipe}

/-- The step of such a pipe is first-order if its right side is. -/
theorem Calculation.step {p : Pipe} (h : Calculation s env p.right) (hop : p.op.kind = .standard)
    (hcall : p.right.isCall) : Calculation s env p.step := by
  rw [Pipe.step, hop]
  show Calculation s env p.right.asPipeCall
  generalize p.right = right at h hcall ⊢
  cases h with
  | @call name n args hname hbound hn hargs at_ span =>
    refine .call hname hbound hn ?_ at_ span
    unfold Expr.withPlaceholder
    split
    · exact hargs
    · exact List.forall_mem_cons.2 ⟨.name (.inl rfl) span, hargs⟩
  | _ => cases hcall

namespace Evaluator

/-- A chain of direct calls is evaluated as it stands. -/
theorem eval_piped (hop : op.kind = .standard) (hhead : ¬ head.isPlaceholder)
    (hkind : head.pipeKind? = none) (hne : pipes ≠ []) (hpipes : Pipe.AllDirect op pipes)
    (hbound : s.resolve env op.name = .ok (.value (.special (.pipe op)))) (n : Nat) :
    (level (n + 2)).eval env (head.piped pipes) s =
      (level (n + 1)).evalChain env op.isLazy (head :: pipes.map Pipe.step) s := by
  obtain ⟨init, last, rfl⟩ : ∃ init last, pipes = init ++ [last] :=
    ⟨_, _, (List.dropLast_append_getLast hne).symm⟩
  have hlast : last.op = op := (hpipes last (by simp)).1
  have hescapes : Pipe.escapes (init ++ [last]) = [] := by
    rw [Pipe.escapes, List.map_eq_nil_iff, List.filter_eq_nil_iff]
    intro p hp
    have hcall := (hpipes p hp).2
    cases hright : p.right <;> simp_all [Pipe.isEscaped, Expr.isParen, Expr.isCall]
  have hcompounds : Pipe.compounds (init ++ [last]) = 0 := by
    rw [Pipe.compounds, List.countP_eq_zero]
    intro p hp
    rw [(hpipes p hp).1]
    cases op <;> simp_all [PipeOp.kind]
  rw [← hlast] at hbound ⊢
  rw [eval_piped_append hbound, pipe_of_no_compound _ hhead hkind hescapes hcompounds]

end Evaluator

/-! ### The head -/

section

variable {steps : List Expr}

/-- Unless it demands a placeholder that is pending, a first-order expression only reads the
store. -/
theorem Calculation.eq_of_eval (hhead : Calculation s env head)
    (hsettled : ∀ id e scope, s.resolve env placeholder = .ok (.deferred id) →
      s.thunk? id ≠ some (.pending e scope)) {n : Nat} {v : Value}
    (h : (Evaluator.level n).eval env head s = (.ok v, t)) : t = s := by
  have hlookup : ∀ ev : Evaluator, ∀ v, (ev.lookup env placeholder s).1 = .ok v →
      (ev.lookup env placeholder s).2 = s := by
    intro ev v hv
    rcases hresolve : s.resolve env placeholder with missing | b
    · rw [ev.lookup_of_missing hresolve]
    · cases b with
      | value w => rw [ev.lookup_of_value hresolve]
      | deferred id =>
        rw [ev.lookup_of_resolve hresolve]
        show (ev.force id s).2 = s
        rcases hthunk : s.thunk? id with _ | ⟨e, scope⟩ | _ | w
        · rw [ev.force_of_dangling hthunk]
        · exact absurd hthunk (hsettled id e scope hresolve)
        · rw [ev.force_of_evaluating hthunk]
        · rw [ev.force_of_forced hthunk]
  -- the run is compared with itself, from the store at the beginning alone
  let R : Store → Store → Prop := fun t t' => t = s ∧ t' = s
  have harrival : ∀ k, Follows R ((Evaluator.level k).lookup env placeholder)
      ((Evaluator.level (k + 0)).lookup env placeholder) := by
    rintro k _ _ ⟨rfl, rfl⟩
    exact .refl fun v hv => ⟨hlookup _ v hv, hlookup _ v hv⟩
  have hnames : ∀ t t', R t t' → ∀ name, name ≠ placeholder →
      t'.resolve env name = t.resolve env name := by
    rintro _ _ ⟨rfl, rfl⟩ name _
    rfl
  have hends := Calculation.follows hnames harrival (fun t t' ht => ht.1 ▸ hhead) n s s ⟨rfl, rfl⟩
  rw [Nat.add_zero, h] at hends
  cases hends with
  | ok h => exact h.1

/-- Where the head has been evaluated on demand, the steps are first-order and the stages there. -/
theorem ready_of_head (hs : s.Placed) (henv : s.HasFrames env) (hhead : Calculation s env head)
    (hsteps : ∀ e ∈ steps, Calculation s env e) {count : Nat}
    (hkept : ∀ id e scope, s.resolve env placeholder = .ok (.deferred id) →
      s.thunk? id = some (.pending e scope) → ∀ k v t,
        (Evaluator.level k).eval env head (s.addDemands count) = (.ok v, t) →
          ∀ e ∈ steps, Calculation t env e)
    (h : t = s.addDemands count ∨
      ∃ k v, (Evaluator.level k).eval env head (s.addDemands count) = (.ok v, t)) :
    (∀ e ∈ steps, Calculation t env e) ∧
      ∀ i < count, t.bindings ⟨s.frames.size + i⟩ =
        [(placeholder, .deferred ⟨s.thunks.size + i⟩)] := by
  have hgrows := s.grows_addDemands count
  have hsame : ∀ name, (s.addDemands count).resolve env name = s.resolve env name :=
    hgrows.resolve_eq henv
  have hcode : ∀ e ∈ steps, Calculation (s.addDemands count) env e :=
    fun e he => (hsteps e he).of_resolve_eq fun name _ => hsame name
  rcases h with rfl | ⟨k, v, hrun⟩
  · exact ⟨hcode, fun i hi => s.bindings_addDemands hi⟩
  refine ⟨?_, fun i hi => ?_⟩
  · by_cases hpending : ∃ id e scope, s.resolve env placeholder = .ok (.deferred id) ∧
        s.thunk? id = some (.pending e scope)
    · obtain ⟨id, e, scope, hresolve, hthunk⟩ := hpending
      exact hkept id e scope hresolve hthunk k v t hrun
    -- nothing is demanded, so the store is the same
    · have hsettled : ∀ id e scope, (s.addDemands count).resolve env placeholder =
          .ok (.deferred id) → (s.addDemands count).thunk? id ≠ some (.pending e scope) := by
        intro id e scope hresolve hthunk
        have hbefore := (Store.thunk?_of_addDemands hthunk).resolve_left (by rintro ⟨⟩)
        exact hpending ⟨id, e, scope, (hsame placeholder).symm.trans hresolve, hbefore⟩
      have hread := hhead.of_resolve_eq fun name _ => hsame name
      rw [hread.eq_of_eval hsettled hrun]
      exact hcode
  -- whatever a pending placeholder does, no environment sees the frames of the stages
  · have hunseen : ∀ {env : Env}, s.HasFrames env → ⟨s.frames.size + i⟩ ∉ env.visible :=
      fun henv hmem => Nat.not_lt.2 (Nat.le_add_right _ _) (henv _ hmem)
    have hlt : s.frames.size + i < (s.addDemands count).frames.size := by
      rw [(s.sizes_addDemands count).1]
      omega
    have hkeeps := Evaluator.bindings_eval_of_unseen hlt (hunseen henv)
      (fun env hheld => hunseen (hs.held (Store.Holds.of_addDemands hheld))) k head
    rw [hrun] at hkeeps
    exact hkeeps.trans (s.bindings_addDemands hi)

end

/-! ### On demand -/

namespace TwoRuns

variable {P : TwoRuns} {here : Env} {v : Store} {R : Store → Store → Prop} {grouped step : Expr}
  {es : List Expr} {i a : Nat}

/-- Within the stages of a group names refer to the same as around them. -/
theorem HasStages.resolve_addStages (hbase : P.base = s.sizes) {count : Nat}
    (h : P.HasStages count v) (hcount : a + es.length ≤ count) {name : String}
    (hname : name ≠ placeholder) :
    v.resolve ((s.addDemands a).addStages env es).1 name = v.resolve env name := by
  have hinner : ((s.addDemands a).addStages env es).1 =
      env.stages (P.base.frames + a) es.length := by
    rw [Store.fst_addStages, (s.sizes_addDemands a).1, hbase]
    rfl
  rw [hinner]
  exact h.resolve_stages hcount hname

/-- What the stores have in common within a group they have in common around it. -/
theorem Alike.around {there : Env} {t t' : Store} (h : P.Alike here there t t')
    (hnames : ∀ name, name ≠ placeholder → t'.resolve there name = t'.resolve env name)
    (ha : a ≤ P.second) (nesting : Nat) :
    { P with second := a, nesting }.Alike here env t t' where
  code := h.code
  names name hname := (hnames name hname).symm.trans (h.names name hname)
  first := h.first
  second i hi := h.second i (Nat.lt_of_lt_of_le hi ha)

/-- From a step of one run to a group in the other one that ends with the same step.  The group is
a chain of its own, and its stages are made when it is demanded. -/
theorem Ascent.group (hbase : P.base = s.sizes) (hsecond : P.second = P.first)
    (hnesting : P.nesting = 0) (henv : s.HasFrames env) (hstep : step ∈ P.steps)
    (hv : P.Reached i v) (hi : i < P.first) (ha : a + 1 + es.length ≤ P.first)
    (h : P.Ascent here ((s.addDemands (a + 1)).addStages env es).1 (v.addDemands (a + 1))
      ((s.addDemands (a + 1)).addStages env es).2 R)
    (hlow : ∀ k ≤ 2, (Evaluator.level k).eval env grouped (s.addDemands (a + 1)) =
      (.outOfFuel, s.addDemands (a + 1)))
    (hgroup : ∀ k, (Evaluator.level (k + 3)).eval env grouped (s.addDemands (a + 1)) =
      (Evaluator.level (k + 1)).evalLazy env (es ++ [step]) (s.addDemands (a + 1))) :
    ∃ Q, { P with second := a + 1, nesting := 2 }.Ascent (here.within (P.frame i))
      (env.within (P.frame 0)) ((v.addStage here step).2.addDemands a)
      ((s.addStage env grouped).2.addDemands a) Q := by
  let P' : TwoRuns := { P with second := a + 1, nesting := 2 }
  let opened : Store := s.addDemands (a + 1)
  let there : Env := (opened.addStages env es).1
  let within : Store := (opened.addStages env es).2
  have hreached : P'.Reached i v := ⟨hv.frame, hv.thunk⟩
  have hreached' : P'.Reached 0 s := reached_addDemands (P := P') hbase 0
  have hnames : ∀ {t}, P.HasStages P.second t → ∀ name, name ≠ placeholder →
      t.resolve there name = t.resolve env name :=
    fun ht _ hname => ht.resolve_addStages hbase (by omega) hname
  -- the environment of the group is the one around the stages of the group
  have halike : ∀ t t', R t t' → P'.Alike here env t t' := fun t t' htt' =>
    (h.alike t t' htt').around (hnames (h.alike t t' htt').second) (by omega) 2
  have hopened : P'.Alike here env (v.addDemands (a + 1)) opened := by
    obtain ⟨hcode, hsame, hfirst, -⟩ := halike _ _ h.start
    refine ⟨hcode, fun name hname => ?_, hfirst, fun i hi => ?_⟩
    · have hgrows := opened.grows_addStages env es
      rw [← hgrows.resolve_eq (henv.of_grows (s.grows_addDemands (a + 1))) name]
      exact hsame name hname
    · rw [frame, thunk, hbase]
      exact s.bindings_addDemands hi
  let u : Store := (v.addStage here step).2.addDemands a
  let u' : Store := (s.addStage env grouped).2.addDemands a
  have hu : u.enter (P'.thunk i) = v.addDemands (a + 1) := hreached.enter here step a
  have hu' : u'.enter (P'.thunk 0) = opened := hreached'.enter env grouped a
  have hframes : (u.enter (P'.thunk i)).frames = (v.addDemands (a + 1)).frames :=
    congrArg Store.frames hu
  have hframes' : (u'.enter (P'.thunk 0)).frames = opened.frames := congrArg Store.frames hu'
  have hdepth : u'.depth = u.depth := by
    have hinner : (opened.addStages env es).2.depth = opened.depth := by
      rw [(opened.addStages_fields env es).1]
    have hentered : (u'.enter (P'.thunk 0)).depth = (u.enter (P'.thunk i)).depth := by
      rw [hu, hu', ← hinner]
      exact h.depth
    exact Nat.succ.inj hentered
  -- the group comes to what its last step comes to within
  have hcome : ∀ k, (Evaluator.level (k + 3)).eval env grouped opened =
      (Evaluator.level (k + 1)).eval there step within :=
    fun k => (hgroup k).trans (Store.evalLazy_concat _ es step env opened)
  refine ⟨_, Ascent.rung hi (Nat.zero_lt_succ a) halike (hopened.of_frames_eq hframes hframes')
    (hreached.pending here step a) (hreached'.pending env grouped a) hdepth (fun k => ?_)
    fun k => ?_⟩
  · rw [hu, hu']
    cases k with
    | zero => exact .outOfFuel _ _
    | succ k =>
      show EndsLike R _ ((Evaluator.level (k + 3)).eval env grouped opened)
      rw [hcome]
      have hforth := h.follows_eval hstep (k + 1) _ _ h.start
      rwa [hnesting] at hforth
  · rw [hu, hu']
    rcases Nat.lt_or_ge 2 k with hlt | hge
    · obtain ⟨j, rfl⟩ : ∃ j, k = j + 3 := ⟨k - 3, by omega⟩
      rw [hcome]
      exact (h.follows_eval_flip hstep (j + 1) _ _ h.start).of_le (by omega)
    · rw [hlow k hge]
      exact .outOfFuel _ _

end TwoRuns

section

variable {steps first rest : List Expr} {step last grouped : Expr}

/-- A group that ends with a step, in front of others, in a chain that is evaluated on demand. -/
theorem ends_evalLazy_group (henv : s.HasFrames env) (hfirst : ∀ e ∈ first, e ∈ steps)
    (hstep : step ∈ steps) (hrest : ∀ e ∈ rest, e ∈ steps) (hlast : last ∈ steps)
    (hhead : ∀ t, (t = s.addDemands (first.length + 1 + (rest.length + 1)) ∨
      ∃ k v, (Evaluator.level k).eval env head
        (s.addDemands (first.length + 1 + (rest.length + 1))) = (.ok v, t)) →
          (∀ e ∈ steps, Calculation t env e) ∧
          ∀ i < first.length + 1 + (rest.length + 1), t.bindings ⟨s.frames.size + i⟩ =
            [(placeholder, .deferred ⟨s.thunks.size + i⟩)])
    (hlow : ∀ k ≤ 2, (Evaluator.level k).eval env grouped (s.addDemands (rest.length + 1)) =
      (.outOfFuel, s.addDemands (rest.length + 1)))
    (hgroup : ∀ k,
      (Evaluator.level (k + 3)).eval env grouped (s.addDemands (rest.length + 1)) =
        (Evaluator.level (k + 1)).evalLazy env (head :: first ++ [step])
          (s.addDemands (rest.length + 1))) (k : Nat) :
    let whole := (head :: first ++ step :: rest) ++ [last]
    let split := (grouped :: rest) ++ [last]
    EndsLike (fun _ _ => True) ((Evaluator.level k).evalLazy env whole s)
      ((Evaluator.level (k + 2)).evalLazy env split s) ∧
    EndsLike (fun _ _ => True) ((Evaluator.level k).evalLazy env split s)
      ((Evaluator.level k).evalLazy env whole s) := by
  intro whole split
  let P : TwoRuns :=
    { base := s.sizes
      first := first.length + 1 + (rest.length + 1)
      second := first.length + 1 + (rest.length + 1)
      nesting := 0
      steps }
  have hreached : P.Reached 0 s := TwoRuns.reached_addDemands (P := P) rfl 0
  have hwithin := hreached.addStages env (head :: first)
  -- the head and the steps of the group, then the group itself, then the steps after it
  obtain ⟨R, hascent⟩ := TwoRuns.Ascent.exists_of_head (P := P) rfl rfl rfl rfl hfirst hhead
  have hlt : 0 + (head :: first).length < P.first := by
    rw [List.length_cons]
    show 0 + (first.length + 1) < first.length + 1 + (rest.length + 1)
    omega
  have hle : rest.length + 1 + (head :: first).length ≤ P.first := by
    rw [List.length_cons]
    show rest.length + 1 + (first.length + 1) ≤ first.length + 1 + (rest.length + 1)
    omega
  obtain ⟨Q, hbridge⟩ := hascent.group rfl rfl rfl henv hstep hwithin hlt hle hlow hgroup
  let P' : TwoRuns := { P with second := rest.length + 1, nesting := 2 }
  have hreached' : P'.Reached 0 s := TwoRuns.reached_addDemands (P := P') rfl 0
  have hwithin' : P'.Reached (0 + (head :: first).length) (s.addStages env (head :: first)).2 :=
    hreached'.addStages env (head :: first)
  rw [← hwithin.frame, ← hreached.frame] at hbridge
  let inner : Env × Store := (s.addStages env (head :: first)).2.addStage
    (s.addStages env (head :: first)).1 step
  let outer : Env × Store := s.addStage env grouped
  have hopen : P'.Ascent inner.1 outer.1 (inner.2.addDemands (rest.length + 0))
      (outer.2.addDemands (rest.length + 0)) Q := hbridge
  obtain ⟨Q', htop⟩ := hopen.stages hrest (hwithin'.addStage _ step)
    (hreached'.addStage env grouped) (by show _ ≤ P.first; omega)
    (by show 0 + 1 + rest.length ≤ rest.length + 1; omega)
  have hwhole : ∀ ev : Evaluator, ev.evalLazy env whole s = _ :=
    fun ev => Store.evalLazy_concat ev (head :: first ++ step :: rest) last env s
  have hsplit : ∀ ev : Evaluator, ev.evalLazy env split s = _ :=
    fun ev => Store.evalLazy_concat ev (grouped :: rest) last env s
  rw [Store.addStages_append] at hwhole
  rw [hwhole, hsplit, hsplit]
  exact ⟨(htop.follows_eval hlast k _ _ htop.start).mono fun _ _ _ => trivial,
    (htop.follows_eval_flip hlast k _ _ htop.start).mono fun _ _ _ => trivial⟩

end

/-! ### Step by step -/

namespace Evaluator

/-- Step by step, too, what ends at one bound ends in the same way at every larger one. -/
theorem follows_evalSteps {n m : Nat} (hle : n ≤ m) (env : Env) (es : List Expr) :
    Follows Eq ((level n).evalSteps env es) ((level m).evalSteps env es) := by
  rintro s _ rfl
  have hagree : Invariant.anyMayGiveUp.Agrees _ ((level n).evalSteps env es)
      ((level m).evalSteps env es) :=
    (Invariant.agree_level_of_le hle).evalSteps Invariant.lawful_anyMayGiveUp trivial es
  refine (EndsLike.refl fun _ _ => rfl).extend fun hfuel => ?_
  exact ((hagree s trivial).resolve_left fun hlost => hfuel hlost.2).1

end Evaluator

section

variable {first rest : List Expr} {grouped : Expr}

/-- A group in front of others, in a chain that is evaluated step by step.  What it puts the
placeholder back to is forgotten at once. -/
theorem ends_evalSteps_group (hown : s.HasOrdered env.own) (hne : first ≠ []) (hne' : rest ≠ [])
    (hlow : ∀ k ≤ 2, (Evaluator.level k).eval env grouped s = (.outOfFuel, s))
    (hgroup : ∀ k, (Evaluator.level (k + 3)).eval env grouped s =
      (Evaluator.level (k + 1)).evalEager env (head :: first) s) (k : Nat) :
    EndsLike (fun _ _ => True) ((Evaluator.level k).evalSteps env (head :: first ++ rest) s)
      ((Evaluator.level (k + 2)).evalSteps env (grouped :: rest) s) ∧
    EndsLike (fun _ _ => True) ((Evaluator.level k).evalSteps env (grouped :: rest) s)
      ((Evaluator.level k).evalSteps env (head :: first ++ rest) s) := by
  let front (n : Nat) : Eval Value := (Evaluator.level n).evalSteps env (head :: first)
  let back (n : Nat) (v : Value) : Eval Value := do
    Eval.update fun s => s.define env placeholder v
    (Evaluator.level n).evalSteps env rest
  have hwhole : ∀ n, (Evaluator.level n).evalSteps env (head :: first ++ rest) =
      front n >>= back n := fun n =>
    (Evaluator.level n).evalSteps_append_eq (List.cons_ne_nil head first) hne'
  have hsplit : ∀ n, (Evaluator.level n).evalSteps env (grouped :: rest) =
      (Evaluator.level n).eval env grouped >>= back n := fun n =>
    (Evaluator.level n).evalSteps_append_eq (List.cons_ne_nil grouped []) hne'
  -- the chain goes on as if the steps of the group had been its own
  have hopened : ∀ k n, (((Evaluator.level (k + 3)).eval env grouped >>= back n) s).1 =
      ((front (k + 1) >>= back n) s).1 := by
    intro k n
    have hordered := Evaluator.ordered_evalSteps hown (k + 1) env (head :: first)
    have hrun : (Evaluator.level (k + 3)).eval env grouped s = ((front (k + 1) s).1,
        (front (k + 1) s).2.rebind env.own placeholder (s.ownBinding? env placeholder)) := hgroup k
    rw [bind_apply, bind_apply, hrun]
    change (front (k + 1) s).2.HasOrdered env.own at hordered
    generalize front (k + 1) s = x at hordered ⊢
    obtain ⟨r, t⟩ := x
    cases r with
    | ok v =>
      show (((Evaluator.level n).evalSteps env rest) (Store.define _ env placeholder v)).1 =
        (((Evaluator.level n).evalSteps env rest) (t.define env placeholder v)).1
      rw [Store.define_rebind hordered]
    | error | outOfFuel => rfl
  have hsequential := sequential_follows (Eq : Store → Store → Prop)
  have hgo : ∀ {n m n' m'}, n ≤ m → n' ≤ m' →
      Follows Eq (front n >>= back n') (front m >>= back m') := fun hle hle' =>
    hsequential.bind (Evaluator.follows_evalSteps hle env _) fun v =>
      hsequential.bind (.update fun _ _ h => h ▸ rfl) fun _ =>
        Evaluator.follows_evalSteps hle' env rest
  rw [hwhole, hsplit, hsplit]
  refine ⟨?_, ?_⟩
  · cases k with
    | zero =>
      obtain ⟨next, more, rfl⟩ := List.exists_cons_of_ne_nil hne
      exact .outOfFuel _ _
    | succ k =>
      have hends : EndsLike Eq ((front (k + 1) >>= back (k + 1)) s)
          ((front (k + 1) >>= back (k + 3)) s) := hgo (Nat.le_refl _) (by omega) s s rfl
      exact hends.of_fst_eq rfl (hopened k (k + 3))
  · rcases Nat.lt_or_ge 2 k with hlt | hge
    · obtain ⟨j, rfl⟩ : ∃ j, k = j + 3 := ⟨k - 3, by omega⟩
      have hends : EndsLike Eq ((front (j + 1) >>= back (j + 3)) s)
          ((front (j + 3) >>= back (j + 3)) s) := hgo (by omega) (Nat.le_refl _) s s rfl
      exact hends.of_fst_eq (hopened j (j + 3)) rfl
    · rw [bind_of_outOfFuel (hlow k hge)]
      exact .outOfFuel _ _

end

/-! ### Groups -/

/-- A chain that may be grouped: the operator is a standard one and means itself, and the head and
the direct calls that are the steps are first-order. -/
structure Groupable (s : Store) (env : Env) (op : PipeOp) (head : Expr) (pipes : List Pipe) :
    Prop where
  standard : op.kind = .standard
  bound : s.resolve env op.name = .ok (.value (.special (.pipe op)))
  no_placeholder : ¬ head.isPlaceholder
  no_pipe : head.pipeKind? = none
  first_order : Calculation s env head
  direct : Pipe.AllDirect op pipes
  steps : ∀ p ∈ pipes, Calculation s env p.right

/-- On demand the head comes last.  If it may ask for what is pending, which may be anything, then
the steps still are first-order after it. -/
def KeepsSteps (s : Store) (env : Env) (op : PipeOp) (head : Expr) (pipes : List Pipe) : Prop :=
  env.mode.isLazy op.isLazy → ∀ id e scope, s.resolve env placeholder = .ok (.deferred id) →
    s.thunk? id = some (.pending e scope) → ∀ k v t,
      (Evaluator.level k).eval env head (s.addDemands pipes.length) = (.ok v, t) →
        ∀ p ∈ pipes, Calculation t env p.right

/-- The group takes two levels more than the chain that it is. -/
theorem Evaluator.eval_group_of_le {k : Nat} (hk : k ≤ 2) (hne : before ≠ []) (span : Span) :
    (level k).eval env (.paren (head.piped before) span) s = (.outOfFuel, s) := by
  cases k with
  | zero => rfl
  | succ k => exact eval_piped_of_le (Nat.le_of_succ_le_succ hk) hne

namespace Groupable

/-- The steps of such a chain are first-order wherever its right sides are. -/
theorem calculation_step (h : Groupable s env op head pipes)
    (hright : ∀ p ∈ pipes, Calculation t env p.right) :
    ∀ e ∈ pipes.map Pipe.step, Calculation t env e := by
  intro e he
  obtain ⟨p, hp, rfl⟩ := List.mem_map.1 he
  obtain ⟨hop, hcall⟩ := h.direct p hp
  exact (hright p hp).step (hop ▸ h.standard) hcall

/-- What is known where the head has been evaluated on demand. -/
theorem ready (h : Groupable s env op head pipes) (hkept : KeepsSteps s env op head pipes)
    (hlazy : env.mode.isLazy op.isLazy) (hs : s.Placed) (henv : s.HasFrames env)
    (ht : t = s.addDemands pipes.length ∨ ∃ k v,
      (Evaluator.level k).eval env head (s.addDemands pipes.length) = (.ok v, t)) :
    (∀ e ∈ pipes.map Pipe.step, Calculation t env e) ∧
      ∀ i < pipes.length, t.bindings ⟨s.frames.size + i⟩ =
        [(placeholder, .deferred ⟨s.thunks.size + i⟩)] :=
  ready_of_head hs henv h.first_order (h.calculation_step h.steps)
    (fun id e scope hresolve hthunk k v t hrun =>
      h.calculation_step (hkept hlazy id e scope hresolve hthunk k v t hrun)) ht

/-- The group is a chain of its own, while other stages are evaluated. -/
theorem eval_group (h : Groupable s env op head (before ++ after)) (henv : s.HasFrames env)
    (hne : before ≠ []) (span : Span) (count k : Nat) :
    (Evaluator.level (k + 3)).eval env (.paren (head.piped before) span) (s.addDemands count) =
      (Evaluator.level (k + 1)).evalChain env op.isLazy (head :: before.map Pipe.step)
        (s.addDemands count) := by
  have hbound := ((s.grows_addDemands count).resolve_eq henv op.name).trans h.bound
  have hdirect : Pipe.AllDirect op before := fun p hp => h.direct p (List.mem_append_left after hp)
  exact Evaluator.eval_piped h.standard h.no_placeholder h.no_pipe hne hdirect hbound k

theorem ends_evalEager (h : Groupable s env op head (before ++ after))
    (hlazy : ¬ env.mode.isLazy op.isLazy) (henv : s.HasFrames env)
    (hordered : (s.bindings env.own).Ordered) (hne : before ≠ []) (hne' : after ≠ [])
    (span : Span) (k : Nat) :
    let whole := head :: before.map Pipe.step ++ after.map Pipe.step
    let split := Expr.paren (head.piped before) span :: after.map Pipe.step
    EndsLike (fun _ _ => True) ((Evaluator.level k).evalEager env whole s)
      ((Evaluator.level (k + 2)).evalEager env split s) ∧
    EndsLike (fun _ _ => True) ((Evaluator.level k).evalEager env split s)
      ((Evaluator.level k).evalEager env whole s) := by
  intro whole split
  have hown : s.HasOrdered env.own := ⟨henv _ List.mem_cons_self, hordered⟩
  have hgroup : ∀ k, (Evaluator.level (k + 3)).eval env (.paren (head.piped before) span) s =
      (Evaluator.level (k + 1)).evalEager env (head :: before.map Pipe.step) s := fun k =>
    (h.eval_group henv hne span 0 k).trans (congrFun (if_neg hlazy) s)
  obtain ⟨hforth, hback⟩ := ends_evalSteps_group hown (mt List.map_eq_nil_iff.1 hne)
    (mt List.map_eq_nil_iff.1 hne')
    (fun k hk => Evaluator.eval_group_of_le hk hne span) hgroup k
  have hfst := fun ev : Evaluator => ev.evalEager_fst env
  exact ⟨hforth.of_fst_eq (hfst _ _ s) (hfst _ _ s), hback.of_fst_eq (hfst _ _ s) (hfst _ _ s)⟩

/-- On demand the group is deferred as the head of the rest, and forced where its value is read. -/
theorem ends_evalLazy {b last : Pipe}
    (h : Groupable s env op head ((before ++ [b]) ++ (after ++ [last])))
    (hkept : KeepsSteps s env op head ((before ++ [b]) ++ (after ++ [last])))
    (hlazy : env.mode.isLazy op.isLazy) (hs : s.Placed) (henv : s.HasFrames env) (span : Span)
    (k : Nat) :
    let whole := head :: (before ++ [b]).map Pipe.step ++ (after ++ [last]).map Pipe.step
    let split := Expr.paren (head.piped (before ++ [b])) span :: (after ++ [last]).map Pipe.step
    EndsLike (fun _ _ => True) ((Evaluator.level k).evalLazy env whole s)
      ((Evaluator.level (k + 2)).evalLazy env split s) ∧
    EndsLike (fun _ _ => True) ((Evaluator.level k).evalLazy env split s)
      ((Evaluator.level k).evalLazy env whole s) := by
  intro whole split
  have hall : ((before ++ [b]) ++ (after ++ [last])).length =
      (before.map Pipe.step).length + 1 + ((after.map Pipe.step).length + 1) := by
    simp only [List.length_append, List.length_map, List.length_singleton]
  have hready := fun t => h.ready (t := t) hkept hlazy hs henv
  have hsteps : ((before ++ [b]) ++ (after ++ [last])).map Pipe.step =
      before.map Pipe.step ++ (b.step :: (after.map Pipe.step ++ [last.step])) := by simp
  rw [hall, hsteps] at hready
  have hne : before ++ [b] ≠ [] := by simp
  -- the group is evaluated like a chain that begins with the demands so far
  have hgroup := fun count k => (h.eval_group henv hne span count k).trans
    (congrFun (if_pos hlazy) (s.addDemands count))
  have hwhole : whole = (head :: before.map Pipe.step ++ b.step :: after.map Pipe.step) ++
      [last.step] := by simp [whole]
  have hsplit : split = (Expr.paren (head.piped (before ++ [b])) span :: after.map Pipe.step) ++
      [last.step] := by simp [split]
  have hinit : (before ++ [b]).map Pipe.step = before.map Pipe.step ++ [b.step] := by simp
  rw [hinit] at hgroup
  rw [hwhole, hsplit]
  exact ends_evalLazy_group henv (fun _ => List.mem_append_left _) (by simp)
    (fun e he => by simp only [List.mem_append, List.mem_cons, he, true_or, or_true]) (by simp)
    hready (fun k hk => Evaluator.eval_group_of_le hk hne span) (hgroup _) k

/-- A chain and the one whose left part is grouped end alike. -/
theorem ends_evalChain (h : Groupable s env op head (before ++ after))
    (hkept : KeepsSteps s env op head (before ++ after)) (hs : s.Placed) (henv : s.HasFrames env)
    (hordered : (s.bindings env.own).Ordered) (hne : before ≠ []) (hne' : after ≠ [])
    (span : Span) (k : Nat) :
    let whole := head :: (before ++ after).map Pipe.step
    let split := Expr.paren (head.piped before) span :: after.map Pipe.step
    EndsLike (fun _ _ => True) ((Evaluator.level k).evalChain env op.isLazy whole s)
      ((Evaluator.level (k + 2)).evalChain env op.isLazy split s) ∧
    EndsLike (fun _ _ => True) ((Evaluator.level k).evalChain env op.isLazy split s)
      ((Evaluator.level k).evalChain env op.isLazy whole s) := by
  intro whole split
  have hwhole : whole = head :: before.map Pipe.step ++ after.map Pipe.step :=
    congrArg (head :: ·) List.map_append
  unfold Evaluator.evalChain
  rw [hwhole]
  split
  -- on demand the last step is evaluated in place, so that both parts are taken apart at their ends
  next hlazy =>
    obtain ⟨init, b, rfl⟩ : ∃ init b, before = init ++ [b] :=
      ⟨_, _, (List.dropLast_append_getLast hne).symm⟩
    obtain ⟨init', last, rfl⟩ : ∃ init last, after = init ++ [last] :=
      ⟨_, _, (List.dropLast_append_getLast hne').symm⟩
    exact h.ends_evalLazy hkept hlazy hs henv span k
  next hlazy => exact h.ends_evalEager hlazy henv hordered hne hne' span k

end Groupable

/-- Grouping the left part of a chain does not change what it comes to: the value or the error is
the same, whatever the nesting has left.  The group is evaluated as a chain of its own, two levels
further in. -/
theorem grouping_does_not_matter (hs : s.Placed) (henv : s.HasFrames env)
    (hordered : (s.bindings env.own).Ordered) (h : Groupable s env op head (before ++ after))
    (hkept : KeepsSteps s env op head (before ++ after)) (hne : before ≠ []) (hne' : after ≠ [])
    (span : Span) (n : Nat) :
    let flat := head.piped (before ++ after)
    let grouped := (Expr.paren (head.piped before) span).piped after
    (((Evaluator.level n).eval env flat s).1 ≠ .outOfFuel →
      ((Evaluator.level (n + 2)).eval env grouped s).1 = ((Evaluator.level n).eval env flat s).1) ∧
    (((Evaluator.level n).eval env grouped s).1 ≠ .outOfFuel →
      ((Evaluator.level n).eval env flat s).1 = ((Evaluator.level n).eval env grouped s).1) := by
  intro flat grouped
  rcases Nat.lt_or_ge 1 n with hlt | hle
  · obtain ⟨k, rfl⟩ : ∃ k, n = k + 2 := ⟨n - 2, by omega⟩
    have hflat : (Evaluator.level (k + 2)).eval env flat s = _ :=
      Evaluator.eval_piped h.standard h.no_placeholder h.no_pipe (by simp [hne]) h.direct h.bound k
    have hdirect : Pipe.AllDirect op after :=
      fun p hp => h.direct p (List.mem_append_right before hp)
    have hparen : ¬ (Expr.paren (head.piped before) span).isPlaceholder := Bool.false_ne_true
    have hgrouped : ∀ k, (Evaluator.level (k + 2)).eval env grouped s = _ := fun k =>
      Evaluator.eval_piped h.standard hparen rfl hne' hdirect h.bound k
    obtain ⟨hforth, hback⟩ := h.ends_evalChain hkept hs henv hordered hne hne' span (k + 1)
    rw [hflat, hgrouped, hgrouped]
    exact ⟨hforth.fst_eq, hback.fst_eq⟩
  -- at the lowest levels neither of them ends
  · have hflat : (Evaluator.level n).eval env flat s = _ :=
      Evaluator.eval_piped_of_le hle (by simp [hne])
    have hgrouped : (Evaluator.level n).eval env grouped s = _ :=
      Evaluator.eval_piped_of_le hle hne'
    rw [hflat, hgrouped]
    exact ⟨fun hfuel => absurd rfl hfuel, fun hfuel => absurd rfl hfuel⟩

/-- A chain within another one, whose value is pending when the head asks for it; and the same
chain where the nesting leaves no room for all the demands. -/
theorem sums_may_be_grouped :
    let outer : Env := (globalEnv .auto).1
    let op : PipeOp := .standard
    let int (n : Int64) : Expr := .lit (.int n) .nowhere
    let plus (args : List Expr) : Expr := .call (.sym "+" .nowhere) args .nowhere
    let start (depth : Nat) : Store := { (globalEnv .auto).2 with depth }
    let env : Env := ((start 0).addStage outer (int 1)).1
    let store (depth : Nat) : Store := ((start depth).addStage outer (int 1)).2
    let head : Expr := plus [.sym placeholder .nowhere, int 1]
    let before : List Pipe := [⟨op, .nowhere, plus [int 2], .nowhere⟩]
    let after : List Pipe := [⟨op, .nowhere, plus [int 3], .nowhere⟩]
    let flat : Expr := head.piped (before ++ after)
    let grouped : Expr := (Expr.paren (head.piped before) .nowhere).piped after
    let run (n depth : Nat) (e : Expr) := ((Evaluator.level n).eval env e (store depth)).1
    env.own ≠ env.rootFrame ∧
      (∀ depth ∈ [0, 126], (store depth).Placed ∧ (store depth).HasFrames env ∧
        ((store depth).bindings env.own).Ordered ∧
        Groupable (store depth) env op head (before ++ after) ∧
        KeepsSteps (store depth) env op head (before ++ after)) ∧
      run 8 0 flat = .ok (.int 7) ∧ run 10 0 grouped = .ok (.int 7) ∧
      run 8 126 flat = .error (.tooDeep 128) ∧ run 10 126 grouped = .error (.tooDeep 128) := by
  intro outer op int plus start env store head before after flat grouped run
  have hroot : env.own ≠ env.rootFrame := by decide
  have houter : ∀ depth, (start depth).HasFrames outer := by
    obtain ⟨-, henvs⟩ := Session.placed (.start : Session .auto _ _)
    exact fun _ => henvs outer (List.mem_singleton.2 rfl)
  have hstage : ∀ depth, (store depth).Placed ∧ (store depth).HasFrames env := fun depth => by
    have hstart : (start depth).Placed := (placed_globalEnv .auto).of_eq rfl rfl rfl
    exact hstart.addStage (houter depth) (int 1)
  have hordered : ∀ depth, ((store depth).bindings env.own).Ordered := fun depth =>
    List.pairwise_singleton _ _
  -- all that the steps need is the name of the sum
  let sums (t : Store) : Prop := t.resolve env "+" = .ok (.value (.native (.binary .add)))
  have hplus : ∀ t, sums t → ∀ first rest, Calculation t env first →
      (∀ e ∈ rest, Calculation t env e) → Calculation t env (plus (first :: rest)) :=
    fun t ht first rest hfirst hrest =>
      .call (by decide) ht (by decide) (List.forall_mem_cons.2 ⟨hfirst, hrest⟩) _ _
  have hsteps : ∀ t, sums t → ∀ p ∈ before ++ after, Calculation t env p.right := by
    intro t ht
    refine List.forall_mem_cons.2 ⟨?_, List.forall_mem_singleton.2 ?_⟩
    · exact hplus t ht _ [] (.lit _ _) (by rintro _ ⟨⟩)
    · exact hplus t ht _ [] (.lit _ _) (by rintro _ ⟨⟩)
  -- the pending value is a number, and the head ends at level 5
  have hended : ∀ depth ∈ [0, 126],
      let ended := (Evaluator.level 5).eval env head ((store depth).addDemands 2)
      ended.1 ≠ .outOfFuel ∧ sums ended.2 := by
    refine List.forall_mem_cons.2 ⟨?_, List.forall_mem_singleton.2 ?_⟩
    · dsimp +zetaDelta only
      exact ⟨by rintro ⟨⟩, rfl⟩
    · dsimp +zetaDelta only
      exact ⟨by rintro ⟨⟩, rfl⟩
  have hgroupable : ∀ depth ∈ [0, 126], Groupable (store depth) env op head (before ++ after) := by
    intro depth hdepth
    have hbound : sums (store depth) := by
      dsimp +zetaDelta only
      rfl
    refine ⟨rfl, ?_, by decide, rfl, ?_, ?_, hsteps _ hbound⟩
    · dsimp +zetaDelta only
      rfl
    · exact hplus _ hbound _ _ (.name (.inl rfl) _) (List.forall_mem_singleton.2 (.lit _ _))
    · exact List.forall_mem_cons.2 ⟨⟨rfl, rfl⟩, List.forall_mem_singleton.2 ⟨rfl, rfl⟩⟩
  have hkept : ∀ depth ∈ [0, 126], KeepsSteps (store depth) env op head (before ++ after) := by
    intro depth hdepth _ id e scope _ _ k v t hrun
    obtain ⟨hfuel, hsums⟩ := hended depth hdepth
    have hmono := Request.run_mono (Nat.le_max_left k 5) (.eval env head)
      (show ((Evaluator.level k).eval env head _).1 ≠ _ by rw [hrun]; rintro ⟨⟩)
    have hmono' := Request.run_mono (Nat.le_max_right k 5) (.eval env head) hfuel
    obtain ⟨-, rfl⟩ := Prod.ext_iff.1 (hrun.symm.trans (hmono.symm.trans hmono'))
    exact hsteps _ hsums
  have hsum : (1 + 1 + 2 + 3 : Int64) = 7 := by decide
  have hflat : run 8 0 flat = .ok (.int 7) := by
    rw [← hsum]
    dsimp +zetaDelta only
    rfl
  have hdeep : run 8 126 flat = .error (.tooDeep 128) := by
    dsimp +zetaDelta only
    rfl
  have hsame : ∀ depth ∈ [0, 126], run 8 depth flat ≠ .outOfFuel →
      run 10 depth grouped = run 8 depth flat := fun depth hdepth =>
    (grouping_does_not_matter (hstage depth).1 (hstage depth).2 (hordered depth)
      (hgroupable depth hdepth) (hkept depth hdepth) (by simp [before]) (by simp [after])
      .nowhere 8).1
  refine ⟨hroot, fun depth hdepth => ?_, hflat, ?_, hdeep, ?_⟩
  · exact ⟨(hstage depth).1, (hstage depth).2, hordered depth, hgroupable depth hdepth,
      hkept depth hdepth⟩
  · exact (hsame 0 (by simp) (by rw [hflat]; rintro ⟨⟩)).trans hflat
  · exact (hsame 126 (by simp) (by rw [hdeep]; rintro ⟨⟩)).trans hdeep

/-- Without that the group matters: evaluated on demand, the pending value makes another function of
`g`, one that assigns to `x` in the scope of its step.  The step after it sees that scope only if it
is not the scope of a group. -/
theorem grouping_matters_if_pending_rebinds :
    let outer : Env := (globalEnv .auto).1
    let op : PipeOp := .standard
    let dot : Expr := .sym placeholder .nowhere
    let name (text : String) : Expr := .sym text .nowhere
    let one : Expr := .lit (.int 1) .nowhere
    let call (f : String) (second : Expr) : Expr := .call (name f) [dot, second] .nowhere
    let global : Fields Binding := [("compound", .value (.special (.pipe .compound))),
      ("g", .value (.native (.binary .head))), ("x", .value (.int 7))]
    let pending : Expr := .block [.assign (name "g") (name "compound") .outer .nowhere,
      .assign (name "x") (.lambda ["y"] one .nowhere) .outer .nowhere, one] .nowhere
    let start : Store := (Store.empty.addFrame rootBindings).addFrame global
    let env : Env := (start.addStage outer pending).1
    let s : Store := (start.addStage outer pending).2
    let head : Expr := .list [dot, dot] .nowhere
    let target : Expr := .call (name "g") [name "x", dot] .nowhere
    let before : List Pipe := [⟨op, .nowhere, call "head" target, .nowhere⟩]
    let after : List Pipe := [⟨op, .nowhere, call "head" (name "x"), .nowhere⟩]
    let grouped : Expr := (Expr.paren (head.piped before) .nowhere).piped after
    let run (n : Nat) (e : Expr) := ((Evaluator.level n).eval env e s).1
    s.Placed ∧ s.HasFrames env ∧ env.own ≠ env.rootFrame ∧ (s.bindings env.own).Ordered ∧
      Groupable s env op head (before ++ after) ∧
      run 20 (head.piped (before ++ after)) = .ok (.list [.int 1]) ∧
      run 20 grouped = .error (.type (.expected .int .function)) := by
  intro outer op dot name one call global pending start env s head target before after grouped run
  have hflat : run 20 (head.piped (before ++ after)) = .ok (.list [.int 1]) := by
    dsimp +zetaDelta only
    rfl
  have hgrouped : run 20 grouped = .error (.type (.expected .int .function)) := by
    dsimp +zetaDelta only
    rfl
  have hroot : env.own ≠ env.rootFrame := by decide
  have hstart : start.Placed := by
    refine placed_rootBindings.addFrame fun key b hget => ?_
    have hmem := Fields.mem_of_get? hget
    simp only [global, List.mem_cons, Prod.mk.injEq, List.not_mem_nil, or_false] at hmem
    obtain ⟨-, rfl⟩ | ⟨-, rfl⟩ | ⟨-, rfl⟩ := hmem
    all_goals exact ⟨_, rfl, by rintro c ⟨⟩⟩
  have hstage : s.Placed ∧ s.HasFrames env := hstart.addStage (by decide) pending
  have hbound : s.resolve env op.name = .ok (.value (.special (.pipe op))) := by
    dsimp +zetaDelta only
    rfl
  have hdot : Calculation s env dot := .name (.inl rfl) _
  have hx : Calculation s env (name "x") := .name (.inr ⟨.int 7, rfl⟩) _
  -- every step is a call of `head` on calculations, by one of two names
  have hcall : ∀ f, f ≠ placeholder → s.resolve env f = .ok (.value (.native (.binary .head))) →
      ∀ first second, Calculation s env first → Calculation s env second →
        Calculation s env (.call (name f) [first, second] .nowhere) :=
    fun f hf hbound first second hfirst hsecond => .call hf hbound (by decide)
      (List.forall_mem_cons.2 ⟨hfirst, List.forall_mem_singleton.2 hsecond⟩) _ _
  have hordered : (s.bindings env.own).Ordered := List.pairwise_singleton _ _
  have hgroupable : Groupable s env op head (before ++ after) := by
    refine ⟨rfl, hbound, by decide, rfl, ?_, ?_, ?_⟩
    · exact .list (List.forall_mem_cons.2 ⟨hdot, List.forall_mem_singleton.2 hdot⟩) _
    · exact List.forall_mem_cons.2 ⟨⟨rfl, rfl⟩, List.forall_mem_singleton.2 ⟨rfl, rfl⟩⟩
    · have htarget := hcall "g" (by decide) rfl _ _ hx hdot
      have hfirst := hcall "head" (by decide) rfl _ _ hdot htarget
      have hlast := hcall "head" (by decide) rfl _ _ hdot hx
      exact List.forall_mem_cons.2 ⟨hfirst, List.forall_mem_singleton.2 hlast⟩
  exact ⟨hstage.1, hstage.2, hroot, hordered, hgroupable, hflat, hgrouped⟩

end PipeLang
