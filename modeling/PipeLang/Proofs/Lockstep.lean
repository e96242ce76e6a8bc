import PipeLang.Proofs.Demand
import PipeLang.Proofs.Simulation
import PipeLang.Proofs.Unrolling

/-!
# The interpreter in lockstep

Each part of the interpreter keeps every sound simulation: from corresponding stores two evaluators
that agree come to corresponding results, part by part.  `Simulation.Agree.step` puts the parts
together: one more level of evaluation keeps the agreement.

Three things depend on the simulation and are asked for: how names are looked up
(`Simulation.Lookups`, `Simulation.Operators`), what a chain does that binds the placeholder in the
environment itself (`Simulation.Chains`), and the expressions that are deferred but not evaluated
like others (`Simulation.Exceptions`).
-/

namespace PipeLang

/-- The frame in which a name is looked up or found, and the name under which it is bound there. -/
def Store.FoundAt (s : Store) (env : Env) (name : String) (frame : FrameId) (key : String) : Prop :=
  unqualified? name = some key ∧ frame = env.rootFrame ∨
    unqualified? name = none ∧ key = name ∧ ∃ before after, env.visible = before ++ frame :: after ∧
      ∀ other ∈ before, s.binding? other name = none

namespace Simulation

variable {S : Simulation} {w : S.World} {ev other : Evaluator} {env : Env}

/-! ### What is asked for -/

/-- The names in code are looked up alike. -/
def Lookups (S : Simulation) (ev other : Evaluator) : Prop :=
  ∀ {w env name at_ at'}, S.env w env → S.code w env (.sym name at_) (.sym name at') →
    S.Relates w S.value (ev.lookup env name) (other.lookup env name)

/-- The names of operators that stand for each other are looked up as such. -/
def Operators (S : Simulation) (ev other : Evaluator) : Prop :=
  ∀ {w env op op'}, S.env w env → S.operator op op' →
    S.Relates w (fun _ f f' => f = .special (.pipe op) ∧ f' = .special (.pipe op'))
      (ev.lookup env op.name) (other.lookup env op'.name)

/-- Chains are evaluated alike step by step. -/
def Chains (S : Simulation) (ev other : Evaluator) : Prop :=
  ∀ {w env es es'}, S.env w env → List.Forall₂ (S.code w env) es es' →
    S.Relates w S.value (ev.evalEager env es) (other.evalEager env es')

/-- The exceptional expressions are evaluated alike. -/
def Exceptions (S : Simulation) (ev other : Evaluator) : Prop :=
  ∀ {w env e e'}, S.exceptional w env e e' →
    S.Relates w S.value (ev.evalExpr env e) (other.evalExpr env e')

/-! ### Deferred values and names -/

/-- The demands of two values that are still to be evaluated agree if their evaluations do. -/
theorem Ends.force_of_pending (hS : S.Sound) {id id' : ThunkId} (hid : S.thunk w id id')
    {s s' : Store} (hs : S.Corresponds w s s') {e e' : Expr}
    (hx : s.thunk? id = some (.pending e env)) (hy : s'.thunk? id' = some (.pending e' env))
    (hstate : S.State w (.pending e env) (.pending e' env))
    (heval : S.Relates w S.value (ev.eval env e) (other.eval env e')) :
    S.Ends w S.value (ev.force id s) (other.force id' s') := by
  rcases Nat.lt_or_ge s.depth depthLimit with hdepth | hdepth
  · rw [ev.force_of_pending hx hdepth, other.force_of_pending hy (hs.depth ▸ hdepth)]
    have hinner := heval _ _ (hs.enter hS hid)
    generalize ev.eval env e (s.enter id) = x at hinner ⊢
    generalize other.eval env e' (s'.enter id') = y at hinner ⊢
    obtain ⟨r, t⟩ := x
    obtain ⟨r', t'⟩ := y
    rcases hinner with hlost | ⟨w', hle, hstore, hend⟩
    · refine .inl ?_
      revert hlost
      cases r <;> cases r' <;> exact fun hlost => hlost
    -- the value is kept, or what was to be evaluated is put back
    · have hid' := hS.thunk hle hid
      have hback := hstore.leave hS hid' (hS.state hle hstate)
      cases hend with
      | ok hv => exact .inr ⟨w', hle, hstore.leave hS hid' (.forced hv), .ok hv⟩
      | error he => exact .inr ⟨w', hle, hback, .error he⟩
      | outOfFuel => exact .inr ⟨w', hle, hback, .outOfFuel⟩
  · rw [ev.force_of_tooDeep hx hdepth, other.force_of_tooDeep hy (hs.depth ▸ hdepth)]
    exact .inr ⟨w, hS.refl w, hs, .error (.same _)⟩

/-- The demands of deferred values that stand for each other agree. -/
theorem Agree.force (hS : S.Sound) (hev : S.Agree ev other) {id id' : ThunkId}
    (hid : S.thunk w id id') : S.Relates w S.value (ev.force id) (other.force id') := by
  intro s s' hs
  have hthunk := hs.thunks id id' hid
  rcases hx : s.thunk? id with _ | t <;> rcases hy : s'.thunk? id' with _ | t' <;>
    rw [hx, hy] at hthunk
  -- neither exists; that only one does is excluded by the correspondence
  · rw [ev.force_of_dangling hx, other.force_of_dangling hy]
    exact .inr ⟨w, hS.refl w, hs, .error (.same _)⟩
  · cases hthunk
  · cases hthunk
  · cases hthunk with
    | some hstate =>
      -- both are pending, both are being evaluated or both are there
      cases hstate with
      | pending henv h =>
        exact .force_of_pending hS hid hs hx hy (.pending henv h) (hev.eval henv h)
      | exceptional h =>
        exact .force_of_pending hS hid hs hx hy (.exceptional h) (hev.exceptional h)
      | evaluating =>
        rw [ev.force_of_evaluating hx, other.force_of_evaluating hy, hs.depth]
        exact .inr ⟨w, hS.refl w, hs, .error (.same _)⟩
      | forced hv =>
        rw [ev.force_of_forced hx, other.force_of_forced hy]
        exact .inr ⟨w, hS.refl w, hs, .ok hv⟩

/-- A binding that may be read holds a value, or a deferred one that is demanded. -/
theorem Agree.forceBinding (hS : S.Sound) (hev : S.Agree ev other) {b b' : Binding}
    (h : S.Reads w b b') : S.Relates w S.value (ev.forceBinding b) (other.forceBinding b') := by
  cases h with
  | value hv => exact Relates.pure hS.toWorlds hv
  | deferred hid => exact hev.force hS hid

/-- A name is found in the same place in both stores, or in neither. -/
theorem Corresponds.findSome? {s s' : Store} (hs : S.Corresponds w s s') (name : String)
    (frames : List FrameId) :
    (frames.findSome? (s.binding? · name) = none ∧ frames.findSome? (s'.binding? · name) = none) ∨
      ∃ before frame after b b', frames = before ++ frame :: after ∧
        (∀ other ∈ before, s.binding? other name = none) ∧ s.binding? frame name = some b ∧
        S.slot w frame name b b' ∧ frames.findSome? (s.binding? · name) = some b ∧
        frames.findSome? (s'.binding? · name) = some b' := by
  induction frames with
  | nil => exact .inl ⟨rfl, rfl⟩
  | cons frame rest ih =>
    have hhere := hs.bindings frame name
    rw [List.findSome?_cons, List.findSome?_cons]
    -- b <;> | in the frame that comes first both stores have a binding, or neither has
    rcases hb : s.binding? frame name with _ | b <;>
      rcases hb' : s'.binding? frame name with _ | b' <;> rw [hb, hb'] at hhere
    · rcases ih with h | ⟨before, found, after, b, b', hrest, hbefore, hfound, hslot, hs, hs'⟩
      · exact .inl h
      · refine .inr ⟨frame :: before, found, after, b, b', by rw [hrest]; rfl, ?_, hfound, hslot,
          hs, hs'⟩
        rintro f (_ | ⟨_, hf⟩)
        · exact hb
        · exact hbefore f hf
    · cases hhere
    · cases hhere
    · cases hhere with
      | some hslot =>
        exact .inr ⟨[], frame, rest, b, b', rfl, by simp, hb, hslot, rfl, rfl⟩

/-- A name is missing in both stores, or found under the same key of the same frame. -/
theorem Corresponds.resolve {s s' : Store} (hs : S.Corresponds w s s') (env : Env)
    (name : String) :
    (∃ missing, s.resolve env name = .error missing ∧ s'.resolve env name = .error missing) ∨
      ∃ frame key b b', s.FoundAt env name frame key ∧ s.binding? frame key = some b ∧
        S.slot w frame key b b' ∧ s.resolve env name = .ok b ∧ s'.resolve env name = .ok b' := by
  unfold Store.resolve
  rcases hname : unqualified? name with _ | bare
  · rcases hs.findSome? name env.visible with ⟨h, h'⟩ | ⟨before, frame, after, b, b', hvisible,
      hbefore, hfound, hslot, h, h'⟩
    · exact .inl ⟨name, by rw [Store.find?, h]; rfl, by rw [Store.find?, h']; rfl⟩
    · exact .inr ⟨frame, name, b, b', .inr ⟨hname, rfl, before, after, hvisible, hbefore⟩, hfound,
        hslot, by rw [Store.find?, h]; rfl, by rw [Store.find?, h']; rfl⟩
  -- a qualified name is looked up in the root frame alone
  · have hroot := hs.bindings env.rootFrame bare
    dsimp only
    rcases hb : s.binding? env.rootFrame bare with _ | b <;>
      rcases hb' : s'.binding? env.rootFrame bare with _ | b' <;> rw [hb, hb'] at hroot
    · exact .inl ⟨bare, rfl, rfl⟩
    · cases hroot
    · cases hroot
    · cases hroot with
      | some hslot =>
        exact .inr ⟨env.rootFrame, bare, b, b', .inl ⟨hname, rfl⟩, hb, hslot, rfl, rfl⟩

/-- Names are looked up alike if what they are found to be bound to is demanded alike. -/
theorem Relates.lookup (hS : S.Worlds) {good : S.World → Value → Value → Prop} {name : String}
    (h : ∀ s s', S.Corresponds w s s' → ∀ frame key b b', s.FoundAt env name frame key →
      s.binding? frame key = some b → S.slot w frame key b b' →
        S.Relates w good (ev.forceBinding b) (other.forceBinding b')) :
    S.Relates w good (ev.lookup env name) (other.lookup env name) := by
  intro s s' hs
  rcases hs.resolve env name with ⟨missing, hmissing, hmissing'⟩ | ⟨frame, key, b, b', hfound, hb,
    hslot, hok, hok'⟩
  · rw [ev.lookup_of_missing hmissing, other.lookup_of_missing hmissing']
    exact .inr ⟨w, hS.refl w, hs, .error (.same _)⟩
  · rw [ev.lookup_of_resolve hok, other.lookup_of_resolve hok']
    exact h s s' hs frame key b b' hfound hb hslot s s' hs

/-! ### Expressions in a row -/

/-- The expressions correspond, in an environment that is met. -/
def Both (S : Simulation) (env : Env) (w : S.World) (e e' : Expr) : Prop :=
  S.env w env ∧ S.code w env e e'

theorem Worlds.both (hS : S.Worlds) (env : Env) : S.Lasts (S.Both env) :=
  fun hle _ _ h => ⟨hS.env hle h.1, hS.code env hle h.2⟩

/-- Every one of the expressions is evaluated in an environment that is good. -/
theorem both_of_codes (henv : S.env w env) {es es' : List Expr}
    (hes : List.Forall₂ (S.code w env) es es') : List.Forall₂ (S.Both env w) es es' :=
  hes.imp fun _ _ he => ⟨henv, he⟩

/-- Arguments are evaluated from left to right in worlds that go on. -/
theorem Agree.evalAll (hS : S.Worlds) (hev : S.Agree ev other) (henv : S.env w env)
    {es es' : List Expr} (hes : List.Forall₂ (S.code w env) es es') :
    S.Relates w (fun w' => List.Forall₂ (S.value w')) (ev.evalAll env es)
      (other.evalAll env es') :=
  Relates.mapM hS hS.value (hS.both env) (fun _ _ _ _ h => hev.eval h.1 h.2)
    (both_of_codes henv hes)

/-- The statements of a block are evaluated in order, and the last one gives the value. -/
theorem Agree.evalStatements (hS : S.Worlds) (hev : S.Agree ev other) (henv : S.env w env)
    {es es' : List Expr} (hes : List.Forall₂ (S.code w env) es es') :
    S.Relates w S.value (ev.evalStatements env es) (other.evalStatements env es') :=
  Relates.foldlM hS (hS.both env) (fun _ _ _ _ _ _ _ h => hev.eval h.1 h.2)
    (both_of_codes henv hes) .null

/-- The functions of a sequence are applied one after the other. -/
theorem Agree.applyAll (hS : S.Worlds) (hev : S.Agree ev other) (henv : S.env w env)
    {fs fs' : List Value} (hfs : List.Forall₂ (S.value w) fs fs') {v v' : Value}
    (hv : S.value w v v') :
    S.Relates w S.value (ev.applyAll env fs v) (other.applyAll env fs' v') :=
  Relates.foldlM hS hS.value
    (fun _ _ _ _ _ hle hv hf => hev.apply (hS.env hle henv) hf (.cons hv .nil)) hfs hv

/-- A field is set in both records, under a name that may be bound. -/
theorem like_insert {l : Likeness} {xs ys : Fields Value} (h : xs.Like l ys) {name : String}
    (hname : l.name name) {v v' : Value} (hv : v.Like l v') :
    Fields.Like l (xs.insert name v) (ys.insert name v') where
  alike := h.alike.insert name hv
  names key hkey := by
    obtain ⟨entry, hentry, rfl⟩ := List.mem_map.1 hkey
    rcases Fields.mem_insert hentry with rfl | hold
    · exact hname
    · exact h.names _ (List.mem_map_of_mem hold)

theorem Worlds.fields (hS : S.Worlds) :
    S.Lasts fun w (xs ys : Fields Value) => xs.Like (S.like w) ys :=
  fun hle _ _ h => Value.like_record_iff.1 (hS.value hle (Value.like_record_iff.2 h))

/-- The fields of records are evaluated in order, under the same names. -/
theorem Agree.evalFields (hS : S.Worlds) (hev : S.Agree ev other) (henv : S.env w env)
    {fields fields' : List (String × Expr)} (hfields : Fields.Alike (S.code w env) fields fields')
    (hnames : ∀ name ∈ fields.map Prod.fst, S.name name) :
    S.Relates w (fun w' xs ys => xs.Like (S.like w') ys) (ev.evalFields env fields)
      (other.evalFields env fields') := by
  let R : S.World → String × Expr → String × Expr → Prop := fun w' a b =>
    (a.1 = b.1 ∧ S.name a.1) ∧ S.Both env w' a.2 b.2
  have hR : S.Lasts R := fun hle _ _ h => ⟨h.1, hS.both env hle h.2⟩
  have hitems : List.Forall₂ (R w) fields fields' := by
    induction hfields with
    | nil => exact .nil
    | cons hentry _ ih =>
      rw [List.map_cons, List.forall_mem_cons] at hnames
      exact .cons ⟨⟨hentry.1, hnames.1⟩, henv, hentry.2⟩ (ih hnames.2)
  refine Relates.foldlM hS hR ?_ hitems ⟨.nil, by simp [Fields.names]⟩
  rintro w₁ known known' ⟨name, e⟩ ⟨_, e'⟩ hle hknown ⟨⟨rfl, hname⟩, he⟩
  refine Relates.bind hS (hev.eval he.1 he.2) fun w₂ v v' hle₂ hv => ?_
  exact Relates.pure hS (like_insert (hS.fields hle₂ hknown) hname hv)

/-! ### Making environments -/

/-- An environment that has been made within this one. -/
def Inner (S : Simulation) (w : S.World) (outer : Env) (w' : S.World) (inner inner' : Env) : Prop :=
  inner' = inner ∧ ∃ z, S.sized w z ∧ inner = outer.within ⟨z.frames⟩ ∧
    S.le (S.resize w z.addFrame) w'

namespace Inner

variable {outer inner inner' : Env} {w' : S.World}

/-- The environment that was made is good. -/
theorem good (hS : S.Sound) (h : S.Inner w outer w' inner inner') (henv : S.env w outer) :
    S.env w' inner := by
  obtain ⟨-, z, hsized, rfl, hle⟩ := h
  exact hS.env hle (hS.within hsized henv)

/-- What is evaluated in the old environment may be evaluated in the new one. -/
theorem code (hS : S.Sound) (h : S.Inner w outer w' inner inner') (henv : S.env w outer)
    {e e' : Expr} (he : S.code w outer e e') : S.code w' inner e e' := by
  obtain ⟨-, z, hsized, rfl, hle⟩ := h
  exact hS.code _ hle (hS.codeWithin hsized henv he)

/-- So may the body of the closure that it was made for. -/
theorem body (hS : S.Sound) {c c' : Closure} (h : S.Inner w c.env w' inner inner')
    (hc : S.closure w c c') : S.code w' inner c.body c'.body := by
  obtain ⟨-, z, hsized, rfl, hle⟩ := h
  exact hS.code _ hle (hS.body hsized hc)

end Inner

/-- A new environment with bindings that correspond. -/
theorem Relates.addChild (hS : S.Sound) (outer : Env) {bindings bindings' : Fields Binding}
    (hnew : ∀ w', S.le w w' → ∀ name,
      Option.Rel (S.Reads w') (bindings.get? name) (bindings'.get? name))
    (hnames : ∀ name ∈ bindings.names, S.name name) :
    S.Relates w (S.Inner w outer) (Eval.make fun s => s.addChild outer bindings)
      (Eval.make fun s => s.addChild outer bindings') := by
  refine Relates.make fun s s' hs => ?_
  have hle := hS.le_resize hs.sized s.sizes.le_addFrame
  have hnext : s'.nextFrame = s.nextFrame := congrArg FrameId.mk hs.frames
  refine ⟨_, hle, hs.addFrame hS (hnew _ hle) hnames, ?_, _, hs.sized, rfl, hS.refl _⟩
  exact congrArg (Env.within · outer) hnext

/-- A new environment with names that are deferred to expressions. -/
theorem Relates.addDeferring (hS : S.Sound) (henv : S.env w env) (outer : Env)
    {params : List String} (hparams : ∀ name ∈ params, S.name name) {args args' : List Expr}
    (hargs : List.Forall₂ (S.code w env) args args') :
    S.Relates w (S.Inner w outer)
      (Eval.make fun s => (outer.within s.nextFrame,
        Evaluator.deferArguments s.nextFrame env params args (s.addFrame [])))
      (Eval.make fun s => (outer.within s.nextFrame,
        Evaluator.deferArguments s.nextFrame env params args' (s.addFrame []))) := by
  refine Relates.make fun s s' hs => ?_
  have hle := hS.le_resize hs.sized s.sizes.le_addFrame
  have hnext : s'.nextFrame = s.nextFrame := congrArg FrameId.mk hs.frames
  obtain ⟨w', hlast, hdeferred⟩ := hs.deferArguments hS henv hparams hargs
  refine ⟨w', hS.trans hle hlast, hdeferred, ?_, _, hs.sized, rfl, hlast⟩
  exact congrArg (Env.within · outer) hnext

/-! ### Making functions and inline nodes -/

/-- A new function gets the same identity in both runs. -/
theorem Relates.freshFunction (hS : S.Worlds) :
    S.Relates w (fun _ id id' => id = id') Eval.freshFunction Eval.freshFunction :=
  Relates.make fun _ _ hs =>
    ⟨w, hS.refl w, hs.addFunction, congrArg FunctionId.mk hs.functions.symm⟩

/-- Closures correspond if their bodies do, whatever their identity will be. -/
theorem Relates.makeClosure (hS : S.Worlds) {params : List String} {body body' : Expr}
    (h : ∀ w', S.le w w' → ∀ id, S.closure w' ⟨id, params, body, env⟩ ⟨id, params, body', env⟩) :
    S.Relates w S.value (Eval.makeClosure params body env) (Eval.makeClosure params body' env) := by
  refine Relates.bind hS (Relates.freshFunction hS) ?_
  rintro w' id _ hle rfl
  exact Relates.pure hS (.closure (h w' hle id) rfl rfl)

/-- A functional sequence has one closure for each step. -/
theorem Relates.makeSequence (hS : S.Sound) (henv : S.env w env) {body body' : List Expr}
    (hbody : List.Forall₂ (S.code w env) body body') :
    S.Relates w S.value (Eval.makeSequence env body) (Eval.makeSequence env body') := by
  refine Relates.bind hS.toWorlds (Relates.mapM hS.toWorlds hS.value (hS.both env)
    (fun w' e e' _ h => Relates.makeClosure hS.toWorlds fun w'' hle =>
      hS.stepClosure (hS.env hle h.1) (hS.code env hle h.2)) (both_of_codes henv hbody)) ?_
  intro w' steps steps' _ hsteps
  refine Relates.bind hS.toWorlds (Relates.freshFunction hS.toWorlds) ?_
  rintro w'' id _ hle rfl
  exact Relates.pure hS.toWorlds (.sequence id (hS.values hle hsteps))

/-- A value that is spliced in corresponds wherever its code is evaluated, and is no pipe. -/
theorem Relates.splice (hS : S.Sound) {v v' : Value} (hv : S.value w v v') {at_ at' : Span}
    (hspan : S.span at_ at') :
    S.Relates w (fun w' e e' => (∀ env, S.env w' env → S.code w' env e e') ∧ e.pipeKind? = none)
      (Eval.splice v at_) (Eval.splice v' at') := by
  refine Relates.make fun s s' hs => ?_
  have hle := hS.le_resize hs.sized s.sizes.le_addInline
  obtain ⟨hadded, hnext⟩ := hs.addInline hS hv
  exact ⟨_, hle, hadded, fun _ henv => hS.spliced (hS.value hle hv) hnext henv hspan, rfl⟩

/-! ### Unrolling chains -/

/-- An expression may be the right side of a link. -/
def Plain (S : Simulation) (e : Expr) : Prop := e.pipeKind? = none ∨ S.free

/-- The links correspond. -/
structure Linked (S : Simulation) (w : S.World) (env : Env) (link link' : Link) : Prop where
  kind : link.kind = link'.kind
  left : S.code w env link.left link'.left
  right : S.code w env link.right link'.right
  plain : S.Plain link.right
  target : link.kind = .compound → S.target w env link.left link'.left

/-- Expressions of one form are both the placeholder or neither is. -/
theorem Matches.isPlaceholder_eq {e e' : Expr} (h : S.Matches w env e e') :
    e.isPlaceholder = e'.isPlaceholder := by
  cases h with
  | operate => rfl
  | _ => rfl

/-- An operator between two sides makes a pipe of its kind. -/
theorem pipeKind?_operator (op : PipeOp) (left right : Expr) (at_ s : Span) :
    (Expr.call (.sym op.name at_) [left, right] s).pipeKind? = some op.kind := by
  rw [Expr.pipeKind?, Expr.callOp?, Option.bind_some, PipeOp.ofName?_name, Option.map_some]

/-- Corresponding expressions are pipes of the same kind, or both none. -/
theorem Sound.pipeKind?_eq (hS : S.Sound) (henv : S.env w env) {e e' : Expr}
    (he : S.code w env e e') : e'.pipeKind? = e.pipeKind? := by
  cases hS.forms henv he with
  | call hfunc hargs s s' =>
    cases hS.forms henv hfunc <;> rfl
  | operate hop hleft hright hplain htarget at_ at' s s' =>
    rw [pipeKind?_operator, pipeKind?_operator, hS.kind hop]
  | _ => rfl

/-- A pipe is a call of operators between two sides, or a call whatsoever where operators are
values. -/
theorem Sound.linked (hS : S.Sound) (henv : S.env w env) {func func' left left' right right' : Expr}
    {s s' : Span} {kind : PipeKind}
    (he : S.code w env (.call func [left, right] s) (.call func' [left', right'] s'))
    (hkind : (Expr.call func [left, right] s).pipeKind? = some kind) :
    S.Linked w env ⟨kind, left, right⟩ ⟨kind, left', right'⟩ := by
  cases hS.forms henv he with
  -- an infix operator: its kind is that of the link
  | operate hop hleft hright hplain htarget at_ at' s s' =>
    rw [pipeKind?_operator] at hkind
    obtain rfl := Option.some.inj hkind
    exact ⟨rfl, hleft, hright, .inl hplain, htarget⟩
  | call hfunc hargs s s' =>
    obtain ⟨hleft, hright⟩ : S.code w env left left' ∧ S.code w env right right' := by
      simpa using hargs
    -- a pipe that is no infix operator is a call by a name, which may then be passed on
    have hfree : S.free := by
      cases func with
      | sym op at_ =>
        refine hS.operatorName hfunc ?_
        rw [Expr.pipeKind?, Expr.callOp?, Option.bind_some, Option.map_eq_some_iff] at hkind
        obtain ⟨_, hop, -⟩ := hkind
        rw [hop]
        rfl
      | _ => cases hkind
    exact ⟨rfl, hleft, hright, .inr hfree, fun _ => hS.targetOfFree hfree hleft⟩

/-- What corresponds to a call has as many arguments. -/
theorem Sound.call_of_call (hS : S.Sound) (henv : S.env w env) {func left right e' : Expr}
    {s : Span} (he : S.code w env (.call func [left, right] s) e') :
    ∃ func' left' right' s', e' = .call func' [left', right'] s' := by
  cases hS.forms henv he with
  | operate => exact ⟨_, _, _, _, rfl⟩
  | call hfunc hargs =>
    obtain ⟨left', right', rfl⟩ := List.length_eq_two.1 hargs.length_eq.symm
    exact ⟨_, _, _, _, rfl⟩

/-- What corresponds to a call of two arguments is one. -/
theorem Sound.call_of_call' (hS : S.Sound) (henv : S.env w env) {e func' left' right' : Expr}
    {s' : Span} (he : S.code w env e (.call func' [left', right'] s')) :
    ∃ func left right s, e = .call func [left, right] s := by
  cases hS.forms henv he with
  | operate => exact ⟨_, _, _, _, rfl⟩
  | call hfunc hargs =>
    obtain ⟨left', right', rfl⟩ := List.length_eq_two.1 hargs.length_eq
    exact ⟨_, _, _, _, rfl⟩

/-- The links of a chain correspond, and so do the heads. -/
theorem Sound.leading (hS : S.Sound) (henv : S.env w env) {e e' : Expr} (he : S.code w env e e')
    {links links' : List Link} (hlinks : List.Forall₂ (S.Linked w env) links links') :
    List.Forall₂ (S.Linked w env) (Chain.leading e links).links (Chain.leading e' links').links ∧
      Option.Rel (S.code w env) (Chain.leading e links).head? (Chain.leading e' links').head? := by
  induction e, links using Chain.leading.induct generalizing e' links' with
  | case1 links e hkind =>
    rw [Chain.leading_of_none hkind, Chain.leading_of_none ((hS.pipeKind?_eq henv he).trans hkind)]
    exact ⟨hlinks, .some he⟩
  | case2 links kind func left right span hkind ih =>
    obtain ⟨func', left', right', span', rfl⟩ := hS.call_of_call henv he
    have hlink := hS.linked henv he hkind
    rw [Chain.leading_of_some hkind, Chain.leading_of_some ((hS.pipeKind?_eq henv he).trans hkind)]
    exact ih hlink.left (.cons hlink hlinks)
  | case3 e links kind hkind hcall =>
    have hcall' : ∀ func left right s, e' ≠ .call func [left, right] s := by
      rintro func' left' right' s' rfl
      obtain ⟨func, left, right, s, rfl⟩ := hS.call_of_call' henv he
      exact hcall func left right s rfl
    rw [Chain.leading_of_other hkind fun func left right s h => hcall func left right s h,
      Chain.leading_of_other ((hS.pipeKind?_eq henv he).trans hkind) hcall']
    exact ⟨hlinks, .none⟩

/-- A right side as it goes into the step: it corresponds, and has a step. -/
def Escaped (S : Simulation) (env : Env) (w : S.World) (e e' : Expr) : Prop :=
  S.code w env e e' ∧ S.Plain e

/-- A right side in parentheses is evaluated and its value spliced in, any other one is left. -/
theorem Agree.escape (hS : S.Sound) (hev : S.Agree ev other) (henv : S.env w env)
    {right right' : Expr} (hright : S.code w env right right') (hplain : S.Plain right) :
    S.Relates w (S.Escaped env) (ev.escape env right) (other.escape env right') := by
  have hsame : S.Relates w (S.Escaped env) (pure right) (pure right') :=
    Relates.pure hS.toWorlds ⟨hright, hplain⟩
  cases hS.forms henv hright with
  | paren h hspan =>
    refine Relates.bind hS.toWorlds (hev.eval henv hright) fun w' v v' hle hv => ?_
    refine (Relates.splice hS hv hspan).mono fun w'' e e' hle' he => ?_
    exact ⟨he.1 env (hS.env hle' (hS.env hle henv)), .inl he.2⟩
  | _ => exact hsame

/-- The right side of a link is evaluated only if the link asks for it. -/
theorem Agree.operand (hS : S.Sound) (hev : S.Agree ev other) (henv : S.env w env)
    {link link' : Link} (hlink : S.Linked w env link link') :
    S.Relates w (S.Escaped env) (ev.operand env link) (other.operand env link') := by
  unfold Evaluator.operand
  rw [hlink.kind]
  split
  · exact Relates.pure hS.toWorlds ⟨hlink.right, hlink.plain⟩
  · exact hev.escape hS henv hlink.right hlink.plain

theorem Worlds.links (hS : S.Worlds) : S.Lasts fun w => S.Linked w env := fun hle _ _ h =>
  ⟨h.kind, hS.code env hle h.left, hS.code env hle h.right, h.plain,
    fun hkind => hS.target env hle (h.target hkind)⟩

/-- The steps of unrolled links correspond, and so do the targets. -/
structure UnrolledTo (S : Simulation) (env : Env) (w : S.World)
    (unrolled unrolled' : List Expr × Option Expr) : Prop where
  steps : List.Forall₂ (S.code w env) unrolled.1 unrolled'.1
  target : Option.Rel (S.target w env) unrolled.2 unrolled'.2

/-- The links are unrolled from right to left, and only one of them may be compound. -/
theorem Agree.unrollLinks (hS : S.Sound) (hev : S.Agree ev other) (henv : S.env w env)
    {links links' : List Link} (hlinks : List.Forall₂ (S.Linked w env) links links') :
    S.Relates w (S.UnrolledTo env) (ev.unrollLinks env links) (other.unrollLinks env links') := by
  induction hlinks with
  | nil => exact Relates.pure hS.toWorlds ⟨.nil, .none⟩
  | @cons link link' rest rest' hlink _ ih =>
    refine Relates.bind hS.toWorlds ih ?_
    rintro w₁ ⟨steps, target?⟩ ⟨steps', target?'⟩ hle hrest
    have hlink₁ := hS.links hle hlink
    refine Relates.bind hS.toWorlds (hev.operand hS (hS.env hle henv) hlink₁) ?_
    rintro w₂ right right' hle₂ ⟨hright, hplain⟩
    have hstep : S.code w₂ env (link.kind.step right) (link'.kind.step right') := by
      rw [← hlink.kind]
      exact hS.step hright hplain link.kind
    have hsteps := hS.codes env hle₂ hrest.steps
    have htarget : Option.Rel (S.target w₂ env) target? target?' :=
      optionRel_mono (fun _ _ => hS.target env hle₂) hrest.target
    have hlink₂ := hS.links hle₂ hlink₁
    -- at most one link is compound
    rcases hkind : link.kind with _ | _ | _ | _ <;> rw [← hlink.kind, hkind] at hstep ⊢
    case compound =>
      cases htarget with
      | none => exact Relates.pure hS.toWorlds ⟨.cons hstep hsteps, .some (hlink₂.target hkind)⟩
      | some _ => exact Relates.fail hS.toWorlds (.same _)
    all_goals exact Relates.pure hS.toWorlds ⟨.cons hstep hsteps, htarget⟩

/-- The unrolled chains correspond. -/
def UnrolledAlike (S : Simulation) (env : Env) (w : S.World) (unrolled unrolled' : Unrolled) :
    Prop :=
  S.UnrolledTo env w (unrolled.exprs, unrolled.target?) (unrolled'.exprs, unrolled'.target?)

/-- What is unrolled of two chains has corresponding steps and corresponding targets. -/
theorem Agree.unroll (hS : S.Sound) (hev : S.Agree ev other) (henv : S.env w env)
    {kind : PipeKind} {left left' right right' : Expr}
    (hlink : S.Linked w env ⟨kind, left, right⟩ ⟨kind, left', right'⟩) :
    S.Relates w (S.UnrolledAlike env) (ev.unroll env (some kind) left right)
      (other.unroll env (some kind) left' right') := by
  obtain ⟨hlinks, hhead⟩ := hS.leading henv hlink.left (.cons hlink .nil)
  refine Relates.bind hS.toWorlds (hev.unrollLinks hS henv hlinks) ?_
  rintro w' ⟨steps, target?⟩ ⟨steps', target?'⟩ hle hunrolled
  have hhead' : Option.Rel (S.code w' env) (Chain.ofPipe kind left right).head?
      (Chain.ofPipe kind left' right').head? :=
    optionRel_mono (fun _ _ => hS.code env hle) hhead
  -- only a chain with a head is unrolled
  dsimp only
  generalize (Chain.ofPipe kind left right).head? = x at hhead' ⊢
  generalize (Chain.ofPipe kind left' right').head? = y at hhead' ⊢
  cases hhead' with
  | none => exact Relates.fail hS.toWorlds (.same _)
  | some hhead => exact Relates.pure hS.toWorlds ⟨.cons hhead hunrolled.steps, hunrolled.target⟩

/-! ### Evaluating chains -/

/-- On demand each step is deferred in a frame of its own, and the last one is evaluated. -/
theorem Agree.evalLazy (hS : S.Sound) (hev : S.Agree ev other) {w : S.World} {env : Env}
    {es es' : List Expr} (henv : S.env w env) (hes : List.Forall₂ (S.code w env) es es') :
    S.Relates w S.value (ev.evalLazy env es) (other.evalLazy env es') := by
  match es, es', hes with
  | [], _, .nil => exact Relates.fail hS.toWorlds (.same _)
  | [last], _, .cons hlast .nil => exact hev.eval henv hlast
  | e :: next :: rest, e' :: _ :: _, .cons he (.cons hnext hrest) =>
    have hnames : ∀ name ∈ [placeholder], S.name name := by simpa using hS.placeholderName
    have hstage : S.Relates w (S.Inner w env) (Eval.make fun s => s.addStage env e)
        (Eval.make fun s => s.addStage env e') :=
      Relates.addDeferring hS henv env hnames (.cons he .nil)
    refine Relates.bind hS.toWorlds hstage ?_
    intro w' inner inner' hle hinner
    obtain rfl : inner' = inner := hinner.1
    exact Agree.evalLazy hS hev (hinner.good hS henv)
      (.cons (hinner.code hS henv hnext) (hrest.imp fun _ _ => hinner.code hS henv))

/-- Whether the placeholder may be bound in the environment from now on. -/
def Rebinds (S : Simulation) (w : S.World) (env : Env) : Prop :=
  ∀ {w' v v'}, S.le w w' → S.value w' v v' →
    S.slot w' env.own placeholder (.value v) (.value v')

/-- Step by step the placeholder is rebound to each value. -/
theorem Agree.evalSteps (hS : S.Sound) (hev : S.Agree ev other) {w : S.World} {env : Env}
    (hrebinds : S.Rebinds w env) {es es' : List Expr} (henv : S.env w env)
    (hes : List.Forall₂ (S.code w env) es es') :
    S.Relates w S.value (ev.evalSteps env es) (other.evalSteps env es') := by
  match es, es', hes with
  | [], _, .nil => exact Relates.fail hS.toWorlds (.same _)
  | [last], _, .cons hlast .nil => exact hev.eval henv hlast
  | e :: next :: rest, _, .cons he (.cons hnext hrest) =>
    refine Relates.bind hS.toWorlds (hev.eval henv he) fun w₁ v v' hle hv => ?_
    refine Relates.bind hS.toWorlds
      (Relates.update hS.toWorlds fun s s' hs => hs.bind (hrebinds hle hv)) ?_
    intro w₂ _ _ hle₂ _
    have hle' := hS.trans hle hle₂
    exact Agree.evalSteps hS hev (fun hle₃ => hrebinds (hS.trans hle' hle₃)) (hS.env hle' henv)
      (.cons (hS.code env hle' hnext) (hS.codes env hle' hrest))

/-- Where the placeholder may be bound in an environment, what it was bound to before can be put
back. -/
theorem Agree.evalEager (hS : S.Sound) (hev : S.Agree ev other) (hrebinds : S.Rebinds w env)
    {es es' : List Expr} (henv : S.env w env) (hes : List.Forall₂ (S.code w env) es es') :
    S.Relates w S.value (ev.evalEager env es) (other.evalEager env es') := by
  intro s s' hs
  have hsaved := hs.bindings env.own placeholder
  have hrestore : ∀ w' t t', S.le w w' → S.Corresponds w' t t' →
      S.Corresponds w' (t.rebind env.own placeholder (s.ownBinding? env placeholder))
        (t'.rebind env.own placeholder (s'.ownBinding? env placeholder)) := by
    intro w' t t' hle ht
    unfold Store.ownBinding?
    rcases hb : s.binding? env.own placeholder with _ | b <;>
      rcases hb' : s'.binding? env.own placeholder with _ | b' <;> rw [hb, hb'] at hsaved
    · refine ht.unbind fun hkept => ?_
      have hsome := hs.kept _ _ hkept
      rw [hb] at hsome
      cases hsome
    · cases hsaved
    · cases hsaved
    · cases hsaved with
      | some hslot => exact ht.bind (hS.slot _ _ hle hslot)
  exact (Relates.ensuring (hev.evalSteps hS hrebinds henv hes) hrestore) s s' hs

theorem Agree.evalUnrolled (hS : S.Sound) (hev : S.Agree ev other) (hchain : S.Chains ev other)
    (henv : S.env w env) {isLazy isLazy' : Bool}
    (hlazy : env.mode.isLazy isLazy = env.mode.isLazy isLazy') {unrolled unrolled' : Unrolled}
    (hunrolled : S.UnrolledAlike env w unrolled unrolled') :
    S.Relates w S.value (ev.evalUnrolled env isLazy unrolled)
      (other.evalUnrolled env isLazy' unrolled') := by
  have hexprs : S.Relates w S.value (ev.evalChain env isLazy unrolled.exprs)
      (other.evalChain env isLazy' unrolled'.exprs) := by
    unfold Evaluator.evalChain
    rw [hlazy]
    split
    · exact hev.evalLazy hS henv hunrolled.steps
    · exact hchain henv hunrolled.steps
  -- there is a target in both runs or in neither
  have htarget : Option.Rel (S.target w env) unrolled.target? unrolled'.target? := hunrolled.target
  unfold Evaluator.evalUnrolled
  generalize unrolled.target? = target? at htarget ⊢
  generalize unrolled'.target? = target?' at htarget ⊢
  cases htarget with
  | none => exact hexprs
  | @some target target' htarget =>
    dsimp only
    rcases hS.targetName henv htarget with ⟨name, hname, hname'⟩ | ⟨a, b, ha, hb, hquote⟩
    -- the target is the same name, which is assigned to after the chain; else both runs fail
    · rw [hname, hname']
      have hassign : S.Relates w S.value
          (do let v ← ev.evalChain env isLazy unrolled.exprs
              Eval.update fun s => s.define env name v
              pure v)
          (do let v ← other.evalChain env isLazy' unrolled'.exprs
              Eval.update fun s => s.define env name v
              pure v) := by
        refine Relates.bind hS.toWorlds hexprs fun w₁ v v' hle hv => ?_
        refine Relates.bind hS.toWorlds (Relates.update hS.toWorlds fun s s' hs => hs.bind
          (hS.slotTarget (hS.env hle henv) (hS.target env hle htarget) hname hv)) ?_
        exact fun w₂ _ _ hle₂ _ => Relates.pure hS.toWorlds (hS.value hle₂ hv)
      exact hassign
    · rw [ha, hb]
      have hfail : S.Relates w S.value (Eval.fail (.assignTarget a))
          (Eval.fail (.assignTarget b)) :=
        Relates.fail hS.toWorlds (.assignTarget hquote)
      exact hfail

/-- A chain is unrolled and then evaluated. -/
theorem Agree.pipe (hS : S.Sound) (hev : S.Agree ev other) (hchain : S.Chains ev other)
    (henv : S.env w env) {kind : PipeKind} {isLazy isLazy' : Bool}
    (hlazy : env.mode.isLazy isLazy = env.mode.isLazy isLazy') {left left' right right' : Expr}
    (hlink : S.Linked w env ⟨kind, left, right⟩ ⟨kind, left', right'⟩) :
    S.Relates w S.value (ev.pipe env (some kind) isLazy left right)
      (other.pipe env (some kind) isLazy' left' right') := by
  refine Relates.bind hS.toWorlds (hev.unroll hS henv hlink) ?_
  rintro w' ⟨exprs, target?⟩ ⟨exprs', target?'⟩ hle hunrolled
  have henv' := hS.env hle henv
  have hexprs : List.Forall₂ (S.code w' env) exprs exprs' := hunrolled.steps
  have hrun := hev.evalUnrolled hS hchain henv' hlazy hunrolled
  cases hexprs with
  | nil => exact hrun
  | cons hhead hsteps =>
    dsimp only
    rw [(hS.forms henv' hhead).isPlaceholder_eq]
    split
    · exact Relates.makeSequence hS henv' hsteps
    · exact hrun

/-! ### Applying functions -/

theorem Relates.ofEq (hS : S.Worlds) {α : Type} {x y : Except EvalError α} (h : x = y) :
    S.Relates w (fun _ a b => a = b) (Eval.ofExcept x) (Eval.ofExcept y) :=
  Relates.ofExcept hS (.of_eq h)

/-- The items of lists that correspond do so. -/
theorem Relates.asList (hS : S.Worlds) {v v' : Value} (hv : S.value w v v') :
    S.Relates w (fun w' => List.Forall₂ (S.value w')) (Eval.ofExcept v.asList)
      (Eval.ofExcept v'.asList) :=
  Relates.ofExcept hS (Value.Like.asList hv)

/-- The fields of records that correspond do so. -/
theorem Relates.asRecord (hS : S.Worlds) {v v' : Value} (hv : S.value w v v') :
    S.Relates w (fun w' xs ys => xs.Like (S.like w') ys) (Eval.ofExcept v.asRecord)
      (Eval.ofExcept v'.asRecord) :=
  Relates.ofExcept hS (Value.Like.asRecord hv)

/-- And the steps of a sequence, or of a list of functions. -/
theorem Relates.stepsOf (hS : S.Worlds) {v v' : Value} (hv : S.value w v v') :
    S.Relates w (fun w' => List.Forall₂ (S.value w')) (Eval.ofExcept (Evaluator.stepsOf v))
      (Eval.ofExcept (Evaluator.stepsOf v')) :=
  Relates.ofExcept hS (Value.Like.stepsOf hv)

theorem Agree.filterItems (hS : S.Worlds) (hev : S.Agree ev other) (henv : S.env w env)
    {predicate predicate' : Value} (hpredicate : S.value w predicate predicate')
    {items items' : List Value} (hitems : List.Forall₂ (S.value w) items items') :
    S.Relates w (fun w' => List.Forall₂ (S.value w')) (ev.filterItems env predicate items)
      (other.filterItems env predicate' items') := by
  have key : ∀ items items', List.Forall₂ (S.value w) items items' → ∀ u, S.le w u →
      S.Relates u (fun w' => List.Forall₂ (S.value w')) (ev.filterItems env predicate items)
        (other.filterItems env predicate' items') := by
    intro items items' hitems
    induction hitems with
    | nil => exact fun _ _ => Relates.pure hS .nil
    | cons hitem _ ih =>
      intro u hle
      have hasked := hev.apply (hS.env hle henv) (hS.value hle hpredicate)
        (.cons (hS.value hle hitem) .nil)
      -- whether an item is kept is answered alike, and the item itself lasts through all later
      -- answers
      refine Relates.bind hS hasked fun u₁ answer answer' hle₁ hanswer => ?_
      refine Relates.bind hS (Relates.ofEq hS hanswer.asBool_eq) ?_
      rintro u₂ keep _ hle₂ rfl
      have hle' := hS.trans hle (hS.trans hle₁ hle₂)
      refine Relates.bind hS (ih u₂ hle') fun u₃ kept kept' hle₃ hkept => Relates.pure hS ?_
      split
      · exact .cons (hS.value (hS.trans hle' hle₃) hitem) hkept
      · exact hkept
  exact key items items' hitems w (hS.refl w)

/-- Values that correspond are shown alike. -/
theorem map_show_eq {l : Likeness} {vs vs' : List Value} (h : List.Forall₂ (Value.Like l) vs vs') :
    vs.map Value.show = vs'.map Value.show := by
  induction h with
  | nil => rfl
  | cons hv _ ih => rw [List.map_cons, List.map_cons, hv.show_eq, ih]

/-- The answers of builtins to values that correspond. -/
theorem Agree.applyNative (hS : S.Worlds) (hev : S.Agree ev other) (henv : S.env w env)
    (n : Native) {args args' : List Value} (hargs : List.Forall₂ (S.value w) args args') :
    S.Relates w S.value (ev.applyNative env n args) (other.applyNative env n args') := by
  -- a wrong number of arguments is the same wrong number in both runs
  have hwrong : S.Relates w S.value (Eval.fail (.arity n.name n.arity args.length))
      (Eval.fail (.arity n.name n.arity args'.length)) := by
    rw [hargs.length_eq]
    exact Relates.fail hS (.same _)
  cases n with
  | unary op =>
    rcases hargs with _ | ⟨ha, _ | _⟩
    · exact hwrong
    · exact Relates.ofExcept hS (op.answer_like ha)
    · exact hwrong
  | binary op =>
    rcases hargs with _ | ⟨ha, _ | ⟨hb, _ | _⟩⟩
    · exact hwrong
    · exact hwrong
    · exact Relates.ofExcept hS (op.answer_like ha hb)
    · exact hwrong
  | paste =>
    have hshow := map_show_eq hargs
    rcases hargs with _ | _
    · exact hwrong
    · refine Relates.pure hS ?_
      rw [hshow]
      exact .str _
  | print =>
    rcases hargs with _ | ⟨ha, _ | _⟩
    · exact hwrong
    · refine Relates.bind hS (Relates.update hS fun s s' hs => ?_) fun w' _ _ hle _ =>
        Relates.pure hS (hS.value hle ha)
      rw [ha.show_eq]
      exact hs.print _
    · exact hwrong
  -- builtins that apply a function to items
  | map =>
    rcases hargs with _ | ⟨ha, _ | ⟨hb, _ | _⟩⟩
    · exact hwrong
    · exact hwrong
    · refine Relates.bind hS (Relates.asList hS ha) fun w' vs vs' hle hvs => ?_
      refine Relates.bind hS (Relates.mapM hS hS.value hS.value (fun w'' v v' hle' hv =>
        hev.apply (hS.env (hS.trans hle hle') henv) (hS.value (hS.trans hle hle') hb)
          (.cons hv .nil)) hvs) ?_
      exact fun _ _ _ _ hanswers => Relates.pure hS (.list hanswers)
    · exact hwrong
  | filter =>
    rcases hargs with _ | ⟨ha, _ | ⟨hb, _ | _⟩⟩
    · exact hwrong
    · exact hwrong
    · refine Relates.bind hS (Relates.asList hS ha) fun w' vs vs' hle hvs => ?_
      refine Relates.bind hS
        (hev.filterItems hS (hS.env hle henv) (hS.value hle hb) hvs) ?_
      exact fun _ _ _ _ hkept => Relates.pure hS (.list hkept)
    · exact hwrong
  | freduce =>
    rcases hargs with _ | ⟨ha, _ | ⟨hb, _ | _⟩⟩
    · exact hwrong
    · exact hwrong
    · refine Relates.bind hS (Relates.stepsOf hS hb) fun w' fs fs' hle hfs => ?_
      exact hev.applyAll hS (hS.env hle henv) hfs (hS.value hle ha)
    · exact hwrong

/-- A truth value is asked for and used. -/
theorem Agree.evalBool {α β : Type} {good : S.World → α → β → Prop} (hS : S.Worlds)
    (hev : S.Agree ev other) (henv : S.env w env) {e e' : Expr} (he : S.code w env e e')
    {f : Bool → Eval α} {g : Bool → Eval β}
    (h : ∀ w' truth, S.le w w' → S.Relates w' good (f truth) (g truth)) :
    S.Relates w good (do let v ← ev.eval env e; let truth ← v.asBool; f truth)
      (do let v ← other.eval env e'; let truth ← v.asBool; g truth) := by
  refine Relates.bind hS (hev.eval henv he) fun w₁ v v' hle hv => ?_
  refine Relates.bind hS (Relates.ofEq hS hv.asBool_eq) ?_
  rintro w₂ truth _ hle₂ rfl
  exact h w₂ truth (hS.trans hle hle₂)

/-- To bind the fields keeps their names. -/
theorem names_map_value (fields : Fields Value) :
    Fields.names (fields.map fun (k, v) => (k, Binding.value v)) = fields.names := by
  rw [Fields.names, Fields.names, List.map_map]
  rfl

/-- The fields of records that correspond, as bindings. -/
theorem get?_map_value {xs ys : Fields Value} (h : xs.Like (S.like w) ys) (name : String) :
    Option.Rel (S.Reads w) (Fields.get? name (xs.map fun (k, v) => (k, Binding.value v)))
      (Fields.get? name (ys.map fun (k, v) => (k, Binding.value v))) := by
  have halike : Fields.Alike (S.Reads w) (xs.map fun (k, v) => (k, Binding.value v))
      (ys.map fun (k, v) => (k, Binding.value v)) := by
    refine List.forall₂_map_left_iff.2 (List.forall₂_map_right_iff.2 ?_)
    exact h.alike.imp fun _ _ hentry => ⟨hentry.1, .value hentry.2⟩
  exact halike.get? name

/-- Operators that evaluate their arguments themselves: the logical ones, `with` and the pipes. -/
theorem Agree.applySpecial (hS : S.Sound) (hev : S.Agree ev other) (hchain : S.Chains ev other)
    (henv : S.env w env) {special : Special} (hspecial : S.free ∨ ∀ op, special ≠ .pipe op)
    {args args' : List Expr} (hargs : List.Forall₂ (S.code w env) args args') :
    S.Relates w S.value (ev.applySpecial env special args)
      (other.applySpecial env special args') := by
  -- all of them take two arguments
  have hwrong : S.Relates w S.value (Eval.fail (.arity special.name (.exactly 2) args.length))
      (Eval.fail (.arity special.name (.exactly 2) args'.length)) := by
    rw [hargs.length_eq]
    exact Relates.fail hS.toWorlds (.same _)
  rcases hargs with _ | ⟨hleft, _ | ⟨hright, _ | _⟩⟩
  · exact hwrong
  · exact hwrong
  · next left left' right right' =>
    have htruth : ∀ w', S.le w w' → S.Relates w' S.value
        (do let v ← ev.eval env right; let truth ← v.asBool; pure (.bool truth))
        (do let v ← other.eval env right'; let truth ← v.asBool; pure (.bool truth)) :=
      fun w' hle => hev.evalBool hS.toWorlds (hS.env hle henv) (hS.code env hle hright)
        fun _ truth _ => Relates.pure hS.toWorlds (.bool truth)
    cases special with
    | and =>
      refine hev.evalBool hS.toWorlds henv hleft fun w' truth hle => ?_
      split
      · exact htruth w' hle
      · exact Relates.pure hS.toWorlds (.bool _)
    | or =>
      refine hev.evalBool hS.toWorlds henv hleft fun w' truth hle => ?_
      split
      · exact Relates.pure hS.toWorlds (.bool _)
      · exact htruth w' hle
    | within =>
      refine Relates.bind hS.toWorlds (hev.eval henv hleft) fun w₁ v v' hle hv => ?_
      refine Relates.bind hS.toWorlds (Relates.asRecord hS.toWorlds hv) ?_
      intro w₂ fields fields' hle₂ hfields
      have hle' := hS.trans hle hle₂
      have henv₂ := hS.env hle' henv
      -- the fields are bound in a new frame, where the second side is evaluated
      have hmade : S.Relates w₂ (S.Inner w₂ env)
          (Eval.make fun s => s.addChild env (fields.map fun (k, v) => (k, .value v)))
          (Eval.make fun s => s.addChild env (fields'.map fun (k, v) => (k, .value v))) :=
        Relates.addChild hS env (fun w₃ hle₃ => get?_map_value (hS.fields hle₃ hfields))
          (by rw [names_map_value]; exact hfields.names)
      refine Relates.bind hS.toWorlds hmade ?_
      intro w₃ inner inner' hle₃ hinner
      obtain rfl : inner' = inner := hinner.1
      exact hev.eval (hinner.good hS henv₂) (hinner.code hS henv₂ (hS.code env hle' hright))
    | pipe op =>
      have hfree : S.free := hspecial.resolve_right fun hne => hne op rfl
      exact hev.pipe hS hchain henv rfl
        ⟨rfl, hleft, hright, .inr hfree, fun _ => hS.targetOfFree hfree hleft⟩
  · exact hwrong

/-- A number of arguments is right or wrong in both runs. -/
theorem Relates.checkArity (hS : S.Worlds) {name name' : String}
    (hname : ∀ expected got, EvalError.Alike S.quote (.arity name expected got)
      (.arity name' expected got)) (expected : Arity) (got : Nat) :
    S.Relates w (fun _ _ _ => True) (Evaluator.checkArity name expected got)
      (Evaluator.checkArity name' expected got) := by
  unfold Evaluator.checkArity
  split
  · exact Relates.pure hS trivial
  · exact Relates.fail hS (hname expected got)

/-- Special functions take the expressions of their arguments, closures defer them, and all others
take their values. -/
theorem Agree.applyCall (hS : S.Sound) (hev : S.Agree ev other) (hchain : S.Chains ev other)
    (henv : S.env w env) {f f' : Value} (hf : S.value w f f') {args args' : List Expr}
    (hargs : List.Forall₂ (S.code w env) args args') {callee callee' : Expr}
    (hcallee : S.quote callee.print callee'.print) :
    S.Relates w S.value (ev.applyCall env f args callee)
      (other.applyCall env f' args' callee') := by
  have hnone : S.Relates w S.value (Eval.fail (.notFunction callee.print))
      (Eval.fail (.notFunction callee'.print)) :=
    Relates.fail hS.toWorlds (.notFunction hcallee)
  -- builtins and sequences
  have hvalues : S.Relates w S.value (do let vs ← ev.evalAll env args; ev.apply env f vs)
      (do let vs ← other.evalAll env args'; other.apply env f' vs) := by
    refine Relates.bind hS.toWorlds (hev.evalAll hS.toWorlds henv hargs) ?_
    exact fun w' vs vs' hle hvs => hev.apply (hS.env hle henv) (hS.value hle hf) hvs
  cases hf with
  | special h => exact hev.applySpecial hS hchain henv h hargs
  | @closure c c' h hid hparams =>
    unfold Evaluator.applyCall
    dsimp only
    rw [← hargs.length_eq, ← hparams]
    refine Relates.bind hS.toWorlds
      (Relates.checkArity hS.toWorlds (fun _ _ => .arity hcallee _ _) _ _) fun w₁ _ _ hle _ => ?_
    -- the closure lasts, and so does what is known of the environment that it has captured
    have hc := hS.closure hle h
    obtain ⟨hsame, hout⟩ := hS.closureEnv hc
    rw [hsame]
    -- the frame of the call is made without bindings, and then gets the deferred arguments
    have hcalled := Relates.bind hS.toWorlds
      (Relates.addDeferring hS (hS.env hle henv) c.env (hS.closureNames hc)
        (hS.codes env hle hargs)) fun w₂ inner inner' hle₂ hinner => by
          obtain rfl : inner' = inner := hinner.1
          exact hev.eval (hinner.good hS hout) (hinner.body hS hc)
    exact hcalled
  | native n => exact hvalues
  | sequence id h => exact hvalues
  | _ => exact hnone

/-- The parameters of a closure, bound to values that correspond. -/
theorem get?_ofList_value {params : List String} {args args' : List Value}
    (hargs : List.Forall₂ (S.value w) args args') (name : String) :
    Option.Rel (S.Reads w)
      (Fields.get? name (Fields.ofList (params.zip (args.map Binding.value))))
      (Fields.get? name (Fields.ofList (params.zip (args'.map Binding.value)))) := by
  have hbound : List.Forall₂ (S.Reads w) (args.map Binding.value) (args'.map Binding.value) := by
    refine List.forall₂_map_left_iff.2 (List.forall₂_map_right_iff.2 ?_)
    exact hargs.imp fun _ _ hv => .value hv
  exact (Fields.Alike.zip hbound).ofList.get? name

/-- Of the parameters only those with an argument are bound. -/
theorem mem_params_of_mem_names {params : List String} {args : List Value} {name : String}
    (h : name ∈ (Fields.ofList (params.zip (args.map Binding.value))).names) : name ∈ params := by
  obtain ⟨entry, hentry, rfl⟩ := List.mem_map.1 h
  exact (List.of_mem_zip (Fields.mem_of_mem_ofList hentry)).1

/-- A function is applied to values: a special one to expressions into which they are spliced. -/
theorem Agree.applyValue (hS : S.Sound) (hev : S.Agree ev other) (hchain : S.Chains ev other)
    (henv : S.env w env) {f f' : Value} (hf : S.value w f f') {args args' : List Value}
    (hargs : List.Forall₂ (S.value w) args args') :
    S.Relates w S.value (ev.applyValue env f args) (other.applyValue env f' args') := by
  have hshow := hf.show_eq
  have hnone : S.Relates w S.value (Eval.fail (.notFunction f.show))
      (Eval.fail (.notFunction f'.show)) := by
    rw [hshow]
    exact Relates.fail hS.toWorlds (.same _)
  have harity : ∀ name expected, S.Relates w (fun _ _ _ => True)
      (Evaluator.checkArity name expected args.length)
      (Evaluator.checkArity name expected args'.length) := by
    rw [hargs.length_eq]
    exact fun name expected => Relates.checkArity hS.toWorlds (fun _ _ => .same _) _ _
  cases hf with
  | native n =>
    refine Relates.bind hS.toWorlds (harity _ _) fun w' _ _ hle _ => ?_
    exact hev.applyNative hS.toWorlds (hS.env hle henv) n (hS.values hle hargs)
  | @closure c c' h hid hparams =>
    unfold Evaluator.applyValue
    dsimp only
    rw [← hparams]
    refine Relates.bind hS.toWorlds (harity _ _) fun w₁ _ _ hle _ => ?_
    have hc := hS.closure hle h
    obtain ⟨hsame, hout⟩ := hS.closureEnv hc
    rw [hsame]
    refine Relates.bind hS.toWorlds (Relates.addChild hS c.env
      (fun w₂ hle₂ => get?_ofList_value (hS.values (hS.trans hle hle₂) hargs))
      fun name hname => hS.closureNames hc name (mem_params_of_mem_names hname)) ?_
    intro w₂ inner inner' hle₂ hinner
    obtain rfl : inner' = inner := hinner.1
    exact hev.eval (hinner.good hS hout) (hinner.body hS hc)
  | special h =>
    -- the expressions that are spliced in are evaluated where the special function is applied
    have hspliced := Relates.mapM hS.toWorlds (hS.both env) hS.value (fun w' v v' hle hv =>
      (Relates.splice hS hv hS.nowhere).mono fun w'' e e' hle' he =>
        have henv'' := hS.env (hS.trans hle hle') henv
        ⟨henv'', he.1 env henv''⟩) hargs
    refine Relates.bind hS.toWorlds hspliced fun w' es es' hle hes => ?_
    exact hev.applySpecial hS hchain (hS.env hle henv) h (hes.imp fun _ _ he => he.2)
  | sequence id h =>
    refine Relates.bind hS.toWorlds (harity _ _) fun w' _ _ hle _ => ?_
    refine hev.applyAll hS.toWorlds (hS.env hle henv) (hS.values hle h) ?_
    cases hargs with
    | nil => exact .null
    | cons hv _ => exact hS.value hle hv
  | _ => exact hnone

/-! ### Expressions -/

/-- A literal is its own value, in every world. -/
theorem Relates.literal (hS : S.Worlds) (literal : Literal) :
    S.Relates w S.value (Pure.pure literal.value) (Pure.pure literal.value) := by
  refine Relates.pure hS ?_
  cases literal with
  | null => exact .null
  | bool b => exact .bool b
  | int n => exact .int n
  | float x => exact .float x
  | str s => exact .str s

/-- What was spliced in is read back, or is missing in both stores. -/
theorem Relates.inline (hS : S.Worlds) {ref ref' : InlineRef} (href : S.ref w ref ref')
    (label : String) (at_ at' : Span) :
    S.Relates w S.value (ev.evalExpr env (.inline label ref at_))
      (other.evalExpr env (.inline label ref' at')) := by
  have hread : S.Relates w (fun w' => Option.Rel (S.value w')) (Eval.read fun s => s.inline? ref)
      (Eval.read fun s => s.inline? ref') :=
    Relates.read hS fun s s' hs => hs.inlines ref ref' href
  refine Relates.bind hS hread fun w' found found' _ hfound => ?_
  cases hfound with
  | none => exact Relates.fail hS (.same _)
  | some hv => exact Relates.pure hS hv

/-- A pipe between operators that stand for each other. -/
theorem Agree.operate (hS : S.Sound) (hev : S.Agree ev other) (hchain : S.Chains ev other)
    (henv : S.env w env) {op op' : PipeOp} (hop : S.operator op op')
    {left left' right right' : Expr} (hleft : S.code w env left left')
    (hright : S.code w env right right') (hplain : right.pipeKind? = none)
    (htarget : op.kind = .compound → S.target w env left left') (at_ at' s s' : Span) :
    S.Relates w S.value (ev.evalExpr env (.call (.sym op.name at_) [left, right] s))
      (other.evalExpr env (.call (.sym op'.name at') [left', right'] s')) := by
  refine Relates.bind hS.toWorlds (hev.operator henv hop at_ at') ?_
  rintro w' _ _ hle ⟨rfl, rfl⟩
  have hlink : S.Linked w env ⟨op.kind, left, right⟩ ⟨op.kind, left', right'⟩ :=
    ⟨rfl, hleft, hright, .inl hplain, htarget⟩
  have henv' := hS.env hle henv
  have hrun := hev.pipe hS hchain henv' (hS.isLazy henv' hop) (hS.links hle hlink)
  have hkind := hS.kind hop
  unfold Evaluator.applyCall Evaluator.applySpecial
  dsimp only
  rw [← hkind]
  exact hrun

/-- One case for each form of an expression.  Its parts are evaluated in the order of the source,
each in the world that the part before has left, and the answers so far are carried over. -/
theorem Agree.evalExpr (hS : S.Sound) (hev : S.Agree ev other) (hlookup : S.Lookups ev other)
    (hchain : S.Chains ev other) (henv : S.env w env) {e e' : Expr} (he : S.code w env e e') :
    S.Relates w S.value (ev.evalExpr env e) (other.evalExpr env e') := by
  cases hS.forms henv he with
  | lit literal => exact Relates.literal hS.toWorlds literal
  | sym name => exact hlookup henv he
  | inline label label' ref ref' at_ at' =>
    obtain ⟨rfl, href⟩ := hS.inline he
    exact Relates.inline hS.toWorlds href label at_ at'
  | paren h => exact hev.eval henv h
  | block h => exact hev.evalStatements hS.toWorlds henv h
  | list h =>
    exact Relates.bind hS.toWorlds (hev.evalAll hS.toWorlds henv h)
      fun _ _ _ _ hvs => Relates.pure hS.toWorlds (.list hvs)
  | record h hnames =>
    exact Relates.bind hS.toWorlds (hev.evalFields hS.toWorlds henv h hnames)
      fun _ _ _ _ hfields => Relates.pure hS.toWorlds (Value.like_record_iff.2 hfields)
  | field h name =>
    refine Relates.bind hS.toWorlds (hev.eval henv h) fun w₁ v v' _ hv => ?_
    refine Relates.bind hS.toWorlds (Relates.asRecord hS.toWorlds hv) ?_
    exact fun _ _ _ _ hfields => Relates.pure hS.toWorlds (.fieldOf hfields name)
  -- the identity of the closure is chosen by the store, so that the bodies must correspond whatever
  -- it is
  | lambda params body body' =>
    exact Relates.makeClosure hS.toWorlds fun w' hle =>
      hS.lambda (hS.env hle henv) (hS.code env hle he)
  | ifThen hcond hyes =>
    refine hev.evalBool hS.toWorlds henv hcond fun w' truth hle => ?_
    split
    · exact hev.eval (hS.env hle henv) (hS.code env hle hyes)
    · exact Relates.pure hS.toWorlds .null
  | ifElse hcond hyes hno =>
    refine hev.evalBool hS.toWorlds henv hcond fun w' truth hle => ?_
    split
    · exact hev.eval (hS.env hle henv) (hS.code env hle hyes)
    · exact hev.eval (hS.env hle henv) (hS.code env hle hno)
  | assign name h scope at_ at' =>
    refine Relates.bind hS.toWorlds (hev.eval henv h) fun w₁ v v' hle hv => ?_
    -- the value is written in a later world than the one in which the assignment was known
    have henv₁ := hS.env hle henv
    have he₁ := hS.code env hle he
    cases scope with
    | inner =>
      exact Relates.bind hS.toWorlds
        (Relates.update hS.toWorlds fun s s' hs => hs.bind (hS.slotAssign henv₁ he₁ hv))
        fun _ _ _ hle₂ _ => Relates.pure hS.toWorlds (hS.value hle₂ hv)
    | outer =>
      exact Relates.bind hS.toWorlds
        (Relates.update hS.toWorlds fun s s' hs => hs.assignOuter fun frame hframe =>
          hS.slotOuter henv₁ he₁ hframe hv)
        fun _ _ _ hle₂ _ => Relates.pure hS.toWorlds (hS.value hle₂ hv)
  | @badAssign target target' hsym hsym' hquote =>
    -- neither target is a symbol, and both runs fail before they evaluate the other side
    have hfail : S.Relates w S.value (Eval.fail (.assignTarget target.print))
        (Eval.fail (.assignTarget target'.print)) :=
      Relates.fail hS.toWorlds (.assignTarget hquote)
    cases target with
    | sym name at_ => exact absurd rfl (hsym name at_)
    | _ =>
      cases target' with
      | sym name at_ => exact absurd rfl (hsym' name at_)
      | _ => exact hfail
  -- the callee is evaluated first, and decides what happens to the arguments
  | call hfunc hargs =>
    refine Relates.bind hS.toWorlds (hev.eval henv hfunc) fun w' f f' hle hf => ?_
    exact hev.applyCall hS hchain (hS.env hle henv) hf (hS.codes env hle hargs) (hS.print hfunc)
  | operate hop hleft hright hplain htarget at_ at' s s' =>
    exact hev.operate hS hchain henv hop hleft hright hplain htarget at_ at' s s'

/-- One level of evaluation keeps the agreement of two evaluators. -/
theorem Agree.step (hS : S.Sound) (hev : S.Agree ev other) (hlookup : S.Lookups ev other)
    (hoperator : S.Operators ev other) (hchain : S.Chains ev other)
    (hexceptional : S.Exceptions ev other) : S.Agree ev.step other.step where
  eval henv he := hev.evalExpr hS hlookup hchain henv he
  exceptional h := hexceptional h
  operator henv hop _ _ := hoperator henv hop
  apply henv hf hargs := hev.applyValue hS hchain henv hf hargs

/-- Evaluators that give up at once agree on everything. -/
theorem agree_idle (hS : S.Worlds) : S.Agree .idle .idle where
  eval _ _ := fun _ _ hs => .inr ⟨_, hS.refl _, hs, .outOfFuel⟩
  exceptional _ := fun _ _ hs => .inr ⟨_, hS.refl _, hs, .outOfFuel⟩
  operator _ _ _ _ := fun _ _ hs => .inr ⟨_, hS.refl _, hs, .outOfFuel⟩
  apply _ _ _ := fun _ _ hs => .inr ⟨_, hS.refl _, hs, .outOfFuel⟩

end Simulation

end PipeLang
