import PipeLang.Proofs.Invariant

/-!
# Invariants of the interpreter

Each part of the interpreter is written against an evaluator for what is nested in it.  So it is
enough to show of each part that it agrees for two evaluators that agree: `Invariant.Agree.step`
puts the parts together, for an invariant that is sound and that the demand of a deferred value and
a chain step by step keep.  What a demand does to an invariant depends on what the invariant says
about deferred values (`Invariant.Forces`), and what a chain step by step does to it on what it
says about the placeholder (`Invariant.Chains`); everything else is here once for all invariants.
-/

namespace PipeLang.Invariant

variable {inv : Invariant} {ev other : Evaluator} {env : Env}

/-! ### Reading the store -/

theorem Sound.binding_of_binding? (hinv : inv.Sound) {s : Store} {frame : FrameId}
    {name : String} {b : Binding} (hs : inv.store s) (h : s.binding? frame name = some b) :
    inv.binding b := by
  cases b with
  | value v => exact hinv.ofBinding hs h
  | deferred id => exact trivial

/-- Whatever a name stands for in a good store is good. -/
theorem Sound.binding_of_resolve (hinv : inv.Sound) {s : Store} {name : String} {b : Binding}
    (hs : inv.store s) (h : s.resolve env name = .ok b) : inv.binding b := by
  have key : ∀ missing found, (∀ b, found = some b → inv.binding b) →
      Store.resolve.toExcept missing found = .ok b → inv.binding b := by
    rintro missing (_ | c) hfound hb
    · cases hb
    · cases hb
      exact hfound _ rfl
  unfold Store.resolve at h
  split at h
  -- a qualified name is looked up in one frame, any other one in all visible frames
  · exact key _ _ (fun b hb => hinv.binding_of_binding? hs hb) h
  · refine key _ _ (fun b hb => ?_) h
    obtain ⟨frame, -, hframe⟩ := List.exists_of_findSome?_eq_some hb
    exact hinv.binding_of_binding? hs hframe

/-! ### Expressions in a row -/

theorem Agree.evalAll (hev : inv.Agree ev other) (henv : inv.env env) {es : List Expr}
    (hes : ∀ e ∈ es, inv.code env e) :
    inv.Agrees (fun vs => ∀ v ∈ vs, inv.value v) (ev.evalAll env es) (other.evalAll env es) :=
  Agrees.mapM fun e he => hev.eval env henv e (hes e he)

theorem Agree.evalStatements (hev : inv.Agree ev other) (henv : inv.env env) {es : List Expr}
    (hes : ∀ e ∈ es, inv.code env e) :
    inv.Agrees inv.value (ev.evalStatements env es) (other.evalStatements env es) :=
  Agrees.foldlM Value.runs_null fun _ _ e he => hev.eval env henv e (hes e he)

theorem Agree.applyAll (hev : inv.Agree ev other) (henv : inv.env env) {fs : List Value}
    (hfs : ∀ f ∈ fs, inv.value f) {v : Value} (hv : inv.value v) :
    inv.Agrees inv.value (ev.applyAll env fs v) (other.applyAll env fs v) :=
  Agrees.foldlM hv fun w hw f hf => hev.apply env henv f (hfs f hf) [w] (by simpa using hw)

/-- The fields of a record are evaluated in turn, and good values are put under their names. -/
theorem Agree.evalFields (hev : inv.Agree ev other) (henv : inv.env env)
    {fields : List (String × Expr)} (hfields : ∀ e ∈ fields.map Prod.snd, inv.code env e) :
    inv.Agrees (fun known : Fields Value => ∀ entry ∈ known, inv.value entry.2)
      (ev.evalFields env fields) (other.evalFields env fields) := by
  refine Agrees.foldlM (by simp) fun known hknown entry hentry => ?_
  have hcode : inv.code env entry.2 := hfields entry.2 (List.mem_map_of_mem hentry)
  refine Agrees.bind (hev.eval env henv entry.2 hcode) fun v hv => Agrees.pure ?_
  intro found hfound
  rcases Fields.mem_insert hfound with rfl | hold
  · exact hv
  · exact hknown found hold

/-! ### Names -/

/-- The demand of each deferred value agrees. -/
def Forces (inv : Invariant) (ev other : Evaluator) : Prop :=
  ∀ id, inv.Agrees inv.value (ev.force id) (other.force id)

theorem Forces.forceBinding (hforce : inv.Forces ev other) {b : Binding} (hb : inv.binding b) :
    inv.Agrees inv.value (ev.forceBinding b) (other.forceBinding b) := by
  cases b with
  | value v => exact Agrees.pure hb
  | deferred id => exact hforce id

/-- To evaluate a name is to read its binding and to demand it, if it is deferred. -/
theorem Forces.lookup (hinv : inv.Sound) (hforce : inv.Forces ev other) (name : String) :
    inv.Agrees inv.value (ev.lookup env name) (other.lookup env name) := by
  have hread : inv.Agrees (fun found => ∀ b, found = .ok b → inv.binding b)
      (Eval.read fun s => s.resolve env name) (Eval.read fun s => s.resolve env name) :=
    Agrees.read (fun s => hinv.unnoticed.resolve s env name) fun s hs b hb =>
      hinv.binding_of_resolve hs hb
  refine Agrees.bind hread fun found hfound => ?_
  cases found with
  | error missing => exact Agrees.fail _
  | ok b => exact hforce.forceBinding (hfound b rfl)

/-! ### Making environments -/

/-- An environment that has been made within this one. -/
def Inner (inv : Invariant) (env inner : Env) : Prop :=
  ∃ s, inv.store s ∧ inner = env.within s.nextFrame

namespace Inner

variable {inner : Env}

theorem good (hinv : inv.Sound) (h : inv.Inner env inner) (henv : inv.env env) : inv.env inner := by
  obtain ⟨s, hs, rfl⟩ := h
  exact hinv.within hs henv

/-- An expression may be evaluated in every environment made within its own. -/
theorem code (hinv : inv.Sound) (h : inv.Inner env inner) {e : Expr} (he : inv.code env e) :
    inv.code inner e := by
  obtain ⟨s, hs, rfl⟩ := h
  exact hinv.codeWithin hs he

/-- The body of a good closure may be evaluated in every environment made within that of the
closure. -/
theorem body (hinv : inv.Sound) {c : Closure} (h : inv.Inner c.env inner) (hc : inv.closure c) :
    inv.code inner c.body := by
  obtain ⟨s, hs, rfl⟩ := h
  exact hinv.body hs hc

end Inner

/-- A new environment with good bindings. -/
theorem Sound.addChild (hinv : inv.Sound) {bindings : Fields Binding}
    (h : ∀ name b, bindings.get? name = some b → inv.binding b) :
    inv.Agrees (inv.Inner env) (Eval.make fun s => s.addChild env bindings)
      (Eval.make fun s => s.addChild env bindings) := by
  refine Agrees.make (fun s => ?_) fun s hs => ⟨⟨s, hs, rfl⟩, hinv.addFrame hs h⟩
  rw [Store.addChild, hinv.unnoticed.nextFrame, hinv.unnoticed.addFrame, Store.addChild]

/-- A new environment with names that are deferred to expressions. -/
theorem Sound.addDeferring (hinv : inv.Sound) {outer : Env} (henv : inv.env env)
    (params : List String) {args : List Expr} (hargs : ∀ e ∈ args, inv.code env e) :
    inv.Agrees (inv.Inner outer)
      (Eval.make fun s => (outer.within s.nextFrame,
        Evaluator.deferArguments s.nextFrame env params args (s.addFrame [])))
      (Eval.make fun s => (outer.within s.nextFrame,
        Evaluator.deferArguments s.nextFrame env params args (s.addFrame []))) := by
  refine Agrees.make (fun s => ?_) fun s hs => ⟨⟨s, hs, rfl⟩, hinv.defer hs henv hargs⟩
  rw [hinv.unnoticed.nextFrame, hinv.unnoticed.addFrame, hinv.unnoticed.deferArguments]

/-! ### Making functions and inline nodes -/

theorem Sound.freshFunction (hinv : inv.Sound) :
    inv.Agrees (fun _ => True) Eval.freshFunction Eval.freshFunction := by
  refine Agrees.make (fun s => ?_) fun _ hs => ⟨trivial, hinv.addFunction hs⟩
  rw [hinv.unnoticed.nextFunction, hinv.unnoticed.addFunction]

theorem Sound.makeClosure (hinv : inv.Sound) {params : List String} {body : Expr}
    (h : ∀ id, inv.closure ⟨id, params, body, env⟩) :
    inv.Agrees inv.value (Eval.makeClosure params body env) (Eval.makeClosure params body env) :=
  Agrees.bind hinv.freshFunction fun id _ => Agrees.pure (Value.runs_closure.2 (h id))

/-- The closures of a functional sequence are over the environment in which it is made. -/
theorem Sound.makeSequence (hinv : inv.Sound) (henv : inv.env env) {body : List Expr}
    (hbody : ∀ e ∈ body, inv.code env e) :
    inv.Agrees inv.value (Eval.makeSequence env body) (Eval.makeSequence env body) := by
  refine Agrees.bind (Agrees.mapM fun e he =>
    hinv.makeClosure (hinv.stepClosure henv (hbody e he))) fun steps hsteps => ?_
  exact Agrees.bind hinv.freshFunction fun _ _ => Agrees.pure (Value.runs_sequence.2 hsteps)

/-- A value that is spliced in is kept in the store, and its node may be evaluated anywhere. -/
theorem Sound.splice (hinv : inv.Sound) {v : Value} (hv : inv.value v) (env : Env) (span : Span) :
    inv.Agrees (inv.code env) (Eval.splice v span) (Eval.splice v span) := by
  refine Agrees.make (fun s => ?_) fun _ hs => ⟨hinv.spliced env _ _ span, hinv.addInline hs hv⟩
  rw [hinv.unnoticed.nextInline, hinv.unnoticed.addInline]

/-! ### Unrolling chains -/

/-- An operand in parentheses is evaluated before the chain is, and its value is spliced in. -/
theorem Agree.escape (hinv : inv.Sound) (hev : inv.Agree ev other) (henv : inv.env env)
    {right : Expr} (hright : inv.code env right) :
    inv.Agrees (inv.code env) (ev.escape env right) (other.escape env right) := by
  unfold Evaluator.escape
  split
  · exact Agrees.bind (hev.eval env henv _ hright) fun v hv => hinv.splice hv env _
  · exact Agrees.pure hright

theorem Agree.operand (hinv : inv.Sound) (hev : inv.Agree ev other) (henv : inv.env env)
    {link : Link} (hlink : inv.code env link.right) :
    inv.Agrees (inv.code env) (ev.operand env link) (other.operand env link) := by
  unfold Evaluator.operand
  split
  · exact Agrees.pure hlink
  · exact hev.escape hinv henv hlink

/-- Both sides of a link are good. -/
def link (inv : Invariant) (env : Env) (link : Link) : Prop :=
  inv.code env link.left ∧ inv.code env link.right

/-- The links and the head of a chain are parts of the pipes that it is written as. -/
theorem Sound.leading (hinv : inv.Sound) {e : Expr} {links : List Link} (he : inv.code env e)
    (hlinks : ∀ link ∈ links, inv.link env link) :
    (∀ link ∈ (Chain.leading e links).links, inv.link env link) ∧
      ∀ head, (Chain.leading e links).head? = some head → inv.code env head := by
  fun_induction Chain.leading e links with
  | case1 links e hkind =>
    simp only [hkind]
    -- what is no pipe is the head
    refine ⟨hlinks, fun head hhead => ?_⟩
    cases hhead
    exact he
  | case2 links kind func left right span hkind ih =>
    simp only [hkind]
    -- a pipe gives its right side to the links, and the induction goes on with its left side
    have hparts := hinv.parts he
    have hleft : inv.code env left := hparts left (by simp [Expr.parts])
    have hright : inv.code env right := hparts right (by simp [Expr.parts])
    refine ih hleft fun link hlink => ?_
    rcases List.mem_cons.1 hlink with rfl | hlink
    · exact ⟨hleft, hright⟩
    · exact hlinks link hlink
  | case3 e links kind hkind hcall =>
    split
    -- a pipe that is no call of two arguments leaves the chain without a head
    · next hnone => simp [hkind] at hnone
    · next func left right span _ => exact absurd rfl (hcall func left right span)
    · exact ⟨hlinks, by rintro head ⟨⟩⟩

/-- The links are unrolled from the last one to the first; the left side of a compound link is the
target, of which there is at most one. -/
theorem Agree.unrollLinks (hinv : inv.Sound) (hev : inv.Agree ev other) (henv : inv.env env)
    {links : List Link} (hlinks : ∀ link ∈ links, inv.link env link) :
    inv.Agrees (fun unrolled => (∀ e ∈ unrolled.1, inv.code env e) ∧
        ∀ target ∈ unrolled.2, inv.code env target)
      (ev.unrollLinks env links) (other.unrollLinks env links) := by
  induction links with
  | nil => exact Agrees.pure ⟨by simp, by simp⟩
  | cons link rest ih =>
    obtain ⟨hleft, hright⟩ := hlinks link (by simp)
    refine Agrees.bind (ih fun link hlink => hlinks link (by simp [hlink])) ?_
    rintro ⟨steps, target?⟩ ⟨hsteps, htarget⟩
    refine Agrees.bind (hev.operand hinv henv hright) fun right hright => ?_
    have hstep := hinv.step hright link.kind
    dsimp only
    split
    · exact Agrees.pure ⟨by simpa using ⟨hstep, hsteps⟩, by simpa using hleft⟩
    · exact Agrees.fail _
    · exact Agrees.pure ⟨by simpa using ⟨hstep, hsteps⟩, htarget⟩

/-- The steps of an unrolled chain and its target are good. -/
structure UnrolledGood (inv : Invariant) (env : Env) (unrolled : Unrolled) : Prop where
  exprs : ∀ e ∈ unrolled.exprs, inv.code env e
  target : ∀ target ∈ unrolled.target?, inv.code env target

/-- An unrolled chain consists of its head and its steps, all of them good. -/
theorem Agree.unroll (hinv : inv.Sound) (hev : inv.Agree ev other) (henv : inv.env env)
    (kind? : Option PipeKind) {left right : Expr} (hleft : inv.code env left)
    (hright : inv.code env right) :
    inv.Agrees (inv.UnrolledGood env) (ev.unroll env kind? left right)
      (other.unroll env kind? left right) := by
  cases kind? with
  | none => exact Agrees.bind (hev.escape hinv henv hright) fun _ _ => Agrees.fail _
  | some kind =>
    have hlast : ∀ link ∈ [Link.mk kind left right], inv.link env link := by
      simpa using ⟨hleft, hright⟩
    obtain ⟨hlinks, hhead⟩ := hinv.leading hleft hlast
    refine Agrees.bind (hev.unrollLinks hinv henv hlinks) ?_
    rintro ⟨steps, target?⟩ ⟨hsteps, htarget⟩
    -- only a chain with a head is unrolled
    dsimp only
    split
    · next head hsome =>
      exact Agrees.pure ⟨by simpa using ⟨hhead head hsome, hsteps⟩, htarget⟩
    · exact Agrees.fail _

/-! ### Evaluating chains -/

/-- The chains that are evaluated step by step agree. -/
def Chains (inv : Invariant) (ev other : Evaluator) : Prop :=
  ∀ env, inv.env env → ∀ es, (∀ e ∈ es, inv.code env e) →
    inv.Agrees inv.value (ev.evalEager env es) (other.evalEager env es)

/-- What is put back at the end of a chain is read at its beginning, so two chains whose steps do
the same do the same. -/
theorem evalEager_congr {es : List Expr} {s : Store}
    (h : other.evalSteps env es s = ev.evalSteps env es s) :
    other.evalEager env es s = ev.evalEager env es s := by
  show ((other.evalSteps env es s).1, _) = ((ev.evalSteps env es s).1, _)
  rw [h]

/-- Between two steps the placeholder is bound to the value of the first one, in the environment of
the chain. -/
theorem Agree.evalSteps (hinv : inv.Lawful) (hev : inv.Agree ev other) (henv : inv.env env) :
    ∀ es : List Expr, inv.Agrees inv.value (ev.evalSteps env es) (other.evalSteps env es)
  | [] => Agrees.fail _
  | [last] => hev.eval env henv last (hinv.code _ _)
  | e :: next :: rest => by
    refine Agrees.bind (hev.eval env henv e (hinv.code _ _)) fun v hv => ?_
    refine Agrees.bind (Agrees.update (fun s => hinv.unnoticed.define s env placeholder v)
      fun s hs => hinv.bind hs henv hv) fun _ _ => ?_
    exact Agree.evalSteps hinv hev henv (next :: rest)

/-- Under a lawful invariant the placeholder may be bound and put back like any other name. -/
theorem Lawful.chains (hinv : inv.Lawful) (hev : inv.Agree ev other) : inv.Chains ev other := by
  intro env henv es _
  have hread : inv.Agrees (fun found => ∀ b, found = some b → inv.binding b)
      (Eval.read fun s => s.ownBinding? env placeholder)
      (Eval.read fun s => s.ownBinding? env placeholder) :=
    Agrees.read (fun s => hinv.unnoticed.binding? s env.own placeholder) fun s hs b hb =>
      hinv.sound.binding_of_binding? hs hb
  refine Agrees.bind hread fun saved hsaved => ?_
  refine Agrees.ensuring (hev.evalSteps hinv henv es)
    (fun s => hinv.unnoticed.rebind s env.own placeholder saved) fun s hs => ?_
  -- what is put back at the end was read from a good store
  cases saved with
  | none => exact hinv.unbind hs henv
  | some b => exact hinv.bind hs henv (hsaved b rfl)

/-- Every stage is an environment within the one before, in which an expression waits; the last
expression is evaluated in the innermost one. -/
theorem Agree.evalLazy (hinv : inv.Sound) (hev : inv.Agree ev other) :
    ∀ {es : List Expr} {env : Env}, inv.env env → (∀ e ∈ es, inv.code env e) →
      inv.Agrees inv.value (ev.evalLazy env es) (other.evalLazy env es)
  | [], _, _, _ => Agrees.fail _
  | [last], env, henv, hes => hev.eval env henv last (hes last (by simp))
  | e :: next :: rest, env, henv, hes => by
    have hfirst : ∀ e' ∈ [e], inv.code env e' := by simpa using hes e (by simp)
    have hstage : inv.Agrees (inv.Inner env) (Eval.make fun s => s.addStage env e)
        (Eval.make fun s => s.addStage env e) := hinv.addDeferring henv [placeholder] hfirst
    refine Agrees.bind hstage fun inner hinner => ?_
    refine Agree.evalLazy hinv hev (hinner.good hinv henv) fun later hlater => ?_
    exact hinner.code hinv (hes later (List.mem_cons_of_mem _ hlater))

/-- An unrolled chain is evaluated by its strategy, and its value is assigned to the target, if
there is one. -/
theorem Agree.evalUnrolled (hinv : inv.Sound) (hev : inv.Agree ev other)
    (hchain : inv.Chains ev other) (henv : inv.env env) (isLazy : Bool) {unrolled : Unrolled}
    (hunrolled : inv.UnrolledGood env unrolled) :
    inv.Agrees inv.value (ev.evalUnrolled env isLazy unrolled)
      (other.evalUnrolled env isLazy unrolled) := by
  have hexprs : inv.Agrees inv.value (ev.evalChain env isLazy unrolled.exprs)
      (other.evalChain env isLazy unrolled.exprs) := by
    unfold Evaluator.evalChain
    split
    · exact hev.evalLazy hinv henv hunrolled.exprs
    · exact hchain env henv _ hunrolled.exprs
  unfold Evaluator.evalUnrolled
  split
  · exact hexprs
  · next target htarget =>
    have hcode : inv.code env target := hunrolled.target target htarget
    refine Agrees.bind (Agrees.ofExcept fun _ h => h) fun name hname => ?_
    refine Agrees.bind hexprs fun v hv => ?_
    refine Agrees.bind (Agrees.update (fun s => hinv.unnoticed.define s env name v)
      fun s hs => ?_) fun _ _ => Agrees.pure hv
    exact hinv.assignTarget hs henv hcode hname hv

/-- A pipe is unrolled and then evaluated. -/
theorem Agree.pipe (hinv : inv.Sound) (hev : inv.Agree ev other) (hchain : inv.Chains ev other)
    (henv : inv.env env) (kind? : Option PipeKind) (isLazy : Bool) {left right : Expr}
    (hleft : inv.code env left) (hright : inv.code env right) :
    inv.Agrees inv.value (ev.pipe env kind? isLazy left right)
      (other.pipe env kind? isLazy left right) := by
  refine Agrees.bind (hev.unroll hinv henv kind? hleft hright) fun unrolled hunrolled => ?_
  split
  · exact hev.evalUnrolled hinv hchain henv isLazy hunrolled
  · next head steps hexprs =>
    split
    · refine hinv.makeSequence henv fun e he => hunrolled.exprs e ?_
      rw [hexprs]
      exact List.mem_cons_of_mem _ he
    · exact hev.evalUnrolled hinv hchain henv isLazy hunrolled

/-! ### Applying functions -/

/-- An item is kept if the predicate says so of it, so only good items are. -/
theorem Agree.filterItems (hev : inv.Agree ev other) (henv : inv.env env) {predicate : Value}
    (hpredicate : inv.value predicate) {items : List Value} (hitems : ∀ v ∈ items, inv.value v) :
    inv.Agrees (fun kept => ∀ v ∈ kept, inv.value v) (ev.filterItems env predicate items)
      (other.filterItems env predicate items) := by
  induction items with
  | nil => exact Agrees.pure (by simp)
  | cons v rest ih =>
    have hv : inv.value v := hitems v (by simp)
    refine Agrees.bind (hev.apply env henv predicate hpredicate [v] (by simpa using hv)) ?_
    intro answer _
    refine Agrees.bind (Agrees.ofExcept fun _ _ => trivial) fun keep _ => ?_
    refine Agrees.bind (ih fun w hw => hitems w (by simp [hw])) fun kept hkept => ?_
    refine Agrees.pure ?_
    split
    · intro w hw
      rcases List.mem_cons.1 hw with rfl | hw
      · exact hv
      · exact hkept w hw
    · exact hkept

/-- The steps of a functional sequence are what the sequence holds. -/
theorem runs_of_stepsOf {p : Closure → Prop} {v : Value} {steps : List Value} (hv : v.Runs p)
    (h : Evaluator.stepsOf v = .ok steps) : ∀ f ∈ steps, f.Runs p := by
  unfold Evaluator.stepsOf at h
  split at h
  · cases h
    exact Value.runs_sequence.1 hv
  · exact Value.runs_of_asList hv h

theorem Agree.applyNative (hinv : inv.Sound) (hev : inv.Agree ev other) (henv : inv.env env)
    (n : Native) {args : List Value} (hargs : ∀ v ∈ args, inv.value v) :
    inv.Agrees inv.value (ev.applyNative env n args) (other.applyNative env n args) := by
  unfold Evaluator.applyNative
  split
  -- builtins that compute with what their arguments hold
  case h_1 op v =>
    exact Agrees.ofExcept fun w hw => UnaryOp.runs_of_answer (hargs v (by simp)) hw
  case h_2 op a b =>
    exact Agrees.ofExcept fun w hw => BinaryOp.runs_of_answer (hargs a (by simp)) hw
  case h_3 => exact Agrees.pure (Value.runs_str _)
  -- `print`
  case h_4 v =>
    refine Agrees.bind (Agrees.update (fun s => hinv.unnoticed.print s v.show)
      fun s hs => hinv.print hs) fun _ _ => ?_
    exact Agrees.pure (hargs v (by simp))
  -- builtins that apply a function to items, `map`, `filter` and `freduce`
  case h_5 items f =>
    refine Agrees.bind (Agrees.ofExcept fun vs hvs =>
      Value.runs_of_asList (hargs items (by simp)) hvs) fun vs hvs => ?_
    refine Agrees.bind (Agrees.mapM fun v hv => hev.apply env henv f (hargs f (by simp)) [v] ?_) ?_
    · rintro w hw
      obtain rfl := List.mem_singleton.1 hw
      exact hvs w hv
    · exact fun answers hanswers => Agrees.pure (Value.runs_list.2 hanswers)
  case h_6 items predicate =>
    refine Agrees.bind (Agrees.ofExcept fun vs hvs =>
      Value.runs_of_asList (hargs items (by simp)) hvs) fun vs hvs => ?_
    refine Agrees.bind (hev.filterItems henv (hargs predicate (by simp)) hvs) ?_
    exact fun kept hkept => Agrees.pure (Value.runs_list.2 hkept)
  case h_7 v fs =>
    refine Agrees.bind (Agrees.ofExcept fun steps hsteps =>
      runs_of_stepsOf (hargs fs (by simp)) hsteps) fun steps hsteps => ?_
    exact hev.applyAll henv hsteps (hargs v (by simp))
  -- a wrong number of arguments
  case h_8 => exact Agrees.fail _

/-- A truth value is asked for and used. -/
theorem Agree.evalBool {β : Type} {next : β → Prop} (hev : inv.Agree ev other)
    (henv : inv.env env) {e : Expr} (he : inv.code env e) {f g : Bool → Eval β}
    (h : ∀ truth, inv.Agrees next (f truth) (g truth)) :
    inv.Agrees next (do let v ← ev.eval env e; let truth ← v.asBool; f truth)
      (do let v ← other.eval env e; let truth ← v.asBool; g truth) := by
  refine Agrees.bind (hev.eval env henv e he) fun v _ => ?_
  exact Agrees.bind (Agrees.ofExcept fun _ _ => trivial) fun truth _ => h truth

/-- A special function gets its arguments as expressions and decides which of them it evaluates, and
where. -/
theorem Agree.applySpecial (hinv : inv.Sound) (hev : inv.Agree ev other)
    (hchain : inv.Chains ev other) (henv : inv.env env) (special : Special) {args : List Expr}
    (hargs : ∀ e ∈ args, inv.code env e) :
    inv.Agrees inv.value (ev.applySpecial env special args)
      (other.applySpecial env special args) := by
  unfold Evaluator.applySpecial
  split
  · next left right =>
    have hleft : inv.code env left := hargs left (by simp)
    have hright : inv.code env right := hargs right (by simp)
    have htruth : inv.Agrees inv.value
        (do let v ← ev.eval env right; let truth ← v.asBool; pure (.bool truth))
        (do let v ← other.eval env right; let truth ← v.asBool; pure (.bool truth)) :=
      hev.evalBool henv hright fun truth => Agrees.pure (Value.runs_bool truth)
    -- a conjunction and a disjunction evaluate the right side only if the left one does not decide
    cases special with
    | and =>
      refine hev.evalBool henv hleft fun truth => ?_
      split
      · exact htruth
      · exact Agrees.pure (Value.runs_bool _)
    | or =>
      refine hev.evalBool henv hleft fun truth => ?_
      split
      · exact Agrees.pure (Value.runs_bool _)
      · exact htruth
    | within =>
      refine Agrees.bind (hev.eval env henv left hleft) fun v hv => ?_
      refine Agrees.bind (Agrees.ofExcept fun fields hfields =>
        Value.runs_of_asRecord hv hfields) fun fields hfields => ?_
      refine Agrees.bind (hinv.addChild ?_) fun inner hinner =>
        hev.eval inner (hinner.good hinv henv) right (hinner.code hinv hright)
      intro name b hb
      -- the new frame binds the fields of a good record
      obtain ⟨entry, hentry, heq⟩ := List.mem_map.1 (Fields.mem_of_get? hb)
      cases heq
      exact hfields entry hentry
    | pipe op => exact hev.pipe hinv hchain henv _ _ hleft hright
  · exact Agrees.fail _

theorem Agrees.checkArity (name : String) (expected : Arity) (got : Nat) :
    inv.Agrees (fun _ => True) (Evaluator.checkArity name expected got)
      (Evaluator.checkArity name expected got) := by
  unfold Evaluator.checkArity
  split
  · exact Agrees.pure trivial
  · exact Agrees.fail _

/-- A call evaluates the arguments of a native function and defers those of a closure. -/
theorem Agree.applyCall (hinv : inv.Sound) (hev : inv.Agree ev other)
    (hchain : inv.Chains ev other) (henv : inv.env env) {f : Value} (hf : inv.value f)
    {args : List Expr} (hargs : ∀ e ∈ args, inv.code env e) (callee : Expr) :
    inv.Agrees inv.value (ev.applyCall env f args callee) (other.applyCall env f args callee) := by
  unfold Evaluator.applyCall
  split
  · exact hev.applySpecial hinv hchain henv _ hargs
  · next c =>
    have hc : inv.closure c := Value.runs_closure.1 hf
    refine Agrees.bind (Agrees.checkArity _ _ _) fun _ _ => ?_
    -- the frame of the call is made without bindings, and then gets the deferred arguments
    have hcalled := Agrees.bind (hinv.addDeferring henv c.params hargs) fun inner hinner =>
      hev.eval inner (hinner.good hinv (hinv.closureEnv hc)) c.body (hinner.body hinv hc)
    exact hcalled
  · exact Agrees.bind (hev.evalAll henv hargs) fun vs hvs => hev.apply env henv _ hf vs hvs
  · exact Agrees.bind (hev.evalAll henv hargs) fun vs hvs => hev.apply env henv _ hf vs hvs
  · exact Agrees.fail _

/-- The bindings of a closure's parameters to good values are good. -/
theorem binding_of_ofList {params : List String} {args : List Value}
    (hargs : ∀ v ∈ args, inv.value v) {name : String} {b : Binding}
    (h : (Fields.ofList (params.zip (args.map Binding.value))).get? name = some b) :
    inv.binding b := by
  have hmem := Fields.mem_of_mem_ofList (Fields.mem_of_get? h)
  obtain ⟨v, hv, rfl⟩ := List.mem_map.1 (List.of_mem_zip hmem).2
  exact hargs v hv

/-- A function that is applied to values instead binds them, or splices them in as expressions. -/
theorem Agree.applyValue (hinv : inv.Sound) (hev : inv.Agree ev other)
    (hchain : inv.Chains ev other) (henv : inv.env env) {f : Value} (hf : inv.value f)
    {args : List Value} (hargs : ∀ v ∈ args, inv.value v) :
    inv.Agrees inv.value (ev.applyValue env f args) (other.applyValue env f args) := by
  unfold Evaluator.applyValue
  split
  · refine Agrees.bind (Agrees.checkArity _ _ _) fun _ _ => ?_
    exact hev.applyNative hinv henv _ hargs
  · next c =>
    have hc : inv.closure c := Value.runs_closure.1 hf
    refine Agrees.bind (Agrees.checkArity _ _ _) fun _ _ => ?_
    refine Agrees.bind (hinv.addChild fun name b hb => binding_of_ofList hargs hb) ?_
    intro inner hinner
    exact hev.eval inner (hinner.good hinv (hinv.closureEnv hc)) c.body (hinner.body hinv hc)
  -- a special function is given nodes that hold the values
  · refine Agrees.bind (Agrees.mapM fun v hv => hinv.splice (hargs v hv) env _) fun exprs h => ?_
    exact hev.applySpecial hinv hchain henv _ h
  · next steps =>
    refine Agrees.bind (Agrees.checkArity _ _ _) fun _ _ => ?_
    refine hev.applyAll henv (Value.runs_sequence.1 hf) ?_
    -- a sequence that is applied to nothing starts from null
    cases args with
    | nil => exact Value.runs_null
    | cons v rest => exact hargs v (by simp)
  · exact Agrees.fail _

/-! ### Expressions -/

/-- An expression agrees if what is nested in it does; the demands of deferred values matter only
where the expression is a name. -/
theorem Agree.evalExpr (hinv : inv.Sound) (hev : inv.Agree ev other)
    (hchain : inv.Chains ev other) (henv : inv.env env) {e : Expr}
    (hlookup : ∀ name span, e = .sym name span →
      inv.Agrees inv.value (ev.lookup env name) (other.lookup env name))
    (he : inv.code env e) : inv.Agrees inv.value (ev.evalExpr env e) (other.evalExpr env e) := by
  -- one case for each constructor; what is nested is evaluated by `ev` and `other`, which agree
  have hparts := hinv.parts he
  cases e with
  | lit literal span => exact Agrees.pure (Value.runs_literal literal)
  | sym name span => exact hlookup name span rfl
  | inline label ref span =>
    have hread : inv.Agrees (fun found => ∀ v, found = some v → inv.value v)
        (Eval.read fun s => s.inline? ref) (Eval.read fun s => s.inline? ref) :=
      Agrees.read (fun s => hinv.unnoticed.inline? s ref) fun s hs v hv => hinv.ofInline hs hv
    refine Agrees.bind hread fun found hfound => ?_
    cases found with
    | none => exact Agrees.fail _
    | some v => exact Agrees.pure (hfound v rfl)
  | paren inner span => exact hev.eval env henv inner (hparts inner (by simp [Expr.parts]))
  | block stmts span => exact hev.evalStatements henv hparts
  | list items span =>
    exact Agrees.bind (hev.evalAll henv hparts) fun vs hvs => Agrees.pure (Value.runs_list.2 hvs)
  | record fields span =>
    refine Agrees.bind (hev.evalFields henv hparts) fun known hknown => ?_
    exact Agrees.pure (Value.runs_record.2 hknown)
  | field target name span =>
    have htarget : inv.code env target := hparts target (by simp [Expr.parts])
    refine Agrees.bind (hev.eval env henv target htarget) fun v hv => ?_
    refine Agrees.bind (Agrees.ofExcept fun fields hfields =>
      Value.runs_of_asRecord hv hfields) fun fields hfields => ?_
    exact Agrees.pure (runs_fieldOf name hfields)
  | lambda params body span => exact hinv.makeClosure (hinv.lambda henv he)
  | ifThen cond yes span =>
    refine hev.evalBool henv (hparts cond (by simp [Expr.parts])) fun truth => ?_
    split
    · exact hev.eval env henv yes (hparts yes (by simp [Expr.parts]))
    · exact Agrees.pure Value.runs_null
  | ifElse cond yes no span =>
    refine hev.evalBool henv (hparts cond (by simp [Expr.parts])) fun truth => ?_
    split
    · exact hev.eval env henv yes (hparts yes (by simp [Expr.parts]))
    · exact hev.eval env henv no (hparts no (by simp [Expr.parts]))
  | assign target value scope span =>
    cases target with
    | sym name at_ =>
      -- the value is evaluated before it is assigned, to a frame that the environment sees
      refine Agrees.bind (hev.eval env henv value (hparts value (by simp [Expr.parts]))) ?_
      intro v hv
      cases scope with
      | inner =>
        exact Agrees.bind (Agrees.update (fun s => hinv.unnoticed.define s env name v)
          fun s hs => hinv.assign hs henv he hv) fun _ _ => Agrees.pure hv
      | outer =>
        exact Agrees.bind (Agrees.update (fun s => hinv.unnoticed.assignOuter s env name v)
          fun s hs => hinv.assignOuter hs henv he hv) fun _ _ => Agrees.pure hv
    | _ => exact Agrees.fail _
  | call func args span =>
    refine Agrees.bind (hev.eval env henv func (hparts func (by simp [Expr.parts]))) fun f hf => ?_
    -- whether the arguments are evaluated depends on the function
    have hargs : ∀ e ∈ args, inv.code env e := fun e he => hparts e (List.mem_cons_of_mem _ he)
    exact hev.applyCall hinv hchain henv hf hargs func

/-- One level of evaluation keeps the agreement of two evaluators. -/
theorem Agree.step (hinv : inv.Sound) (hev : inv.Agree ev other) (hforce : inv.Forces ev other)
    (hchain : inv.Chains ev other) : inv.Agree ev.step other.step where
  eval _ henv _ he := hev.evalExpr hinv hchain henv (fun name _ _ => hforce.lookup hinv name) he
  apply _ henv _ hf _ hargs := hev.applyValue hinv hchain henv hf hargs

end PipeLang.Invariant
