import PipeLang.Eval.Expr
import PipeLang.Proofs.Captured

/-!
# Invariants of evaluations

What holds of all evaluations is proved for the smallest steps first and then once for the whole
interpreter.  An `Invariant` says what is assumed of every environment, every store, every
expression and every closure that an evaluation meets.  Two computations agree under it,
`Invariant.Agrees`, if from every store with the invariant they do the same and keep the invariant;
a computation that agrees with itself is one that keeps it.  Agreement goes through sequences of
computations (`Agrees.bind`, `Agrees.mapM`, `Agrees.foldlM`).

The two computations may be run in stores that differ, as long as no evaluation notices: the second
one gets the store that `Invariant.view` makes of the first one's, before and after.  Most
invariants leave the store as it is.

`Invariant.Sound` collects what must be known about an invariant: what is evaluated within a good
expression is good, what is read from the store is good, each way of writing to the store keeps the
invariant, and the view goes unnoticed (`Store.Unnoticed`).  Many invariants are about environments
and stores alone, and are kept by each single write to a frame; for these `Invariant.Lawful` is
enough (`Invariant.Lawful.sound`).
-/

namespace PipeLang

/-! ### Changes that go unnoticed -/

/-- A change of stores that no evaluation notices: all that is ever read is the same in the changed
store, and all that is written can as well be written before the change. -/
structure Store.Unnoticed (view : Store → Store) : Prop where
  frames : ∀ s, (view s).frames = s.frames
  thunks : ∀ s, (view s).thunks = s.thunks
  inlines : ∀ s, (view s).inlines = s.inlines
  functions : ∀ s, (view s).functions = s.functions
  depth : ∀ s, (view s).depth = s.depth
  setFrames : ∀ s (frames : Array (Fields Binding)),
    { view s with frames := frames } = view { s with frames := frames }
  addThunk : ∀ s e env, (view s).addThunk e env = view (s.addThunk e env)
  addInline : ∀ s v, (view s).addInline v = view (s.addInline v)
  addFunction : ∀ s, (view s).addFunction = view s.addFunction
  print : ∀ s line, (view s).print line = view (s.print line)

namespace Store.Unnoticed

variable {view : Store → Store}

/-- To change nothing goes unnoticed. -/
theorem id : Unnoticed id := by
  constructor <;> intros <;> rfl

variable (h : Unnoticed view)

include h

/-! #### What is read -/

theorem binding? (s : Store) (frame : FrameId) (name : String) :
    (view s).binding? frame name = s.binding? frame name :=
  congrArg (fun frames : Array (Fields Binding) => (frames[frame.index]?.getD []).get? name)
    (h.frames s)

theorem find? (s : Store) (env : Env) (name : String) :
    (view s).find? env name = s.find? env name :=
  find?_congr fun frame _ => h.binding? s frame name

/-- A name, qualified or not, stands for the same binding. -/
theorem resolve (s : Store) (env : Env) (name : String) :
    (view s).resolve env name = s.resolve env name := by
  unfold Store.resolve
  split
  · rw [h.binding?]
  · rw [h.find?]

/-- An outer assignment finds the same frame to write to. -/
theorem assignedFrame (s : Store) (env : Env) (name : String) :
    (view s).assignedFrame env name = s.assignedFrame env name := by
  have hbinding : ((view s).binding? · name) = (s.binding? · name) :=
    funext fun frame => h.binding? s frame name
  exact congrArg (fun bound : FrameId → Option Binding =>
    (env.outer.dropLast.find? fun frame => (bound frame).isSome).getD
      (env.outer.dropLast.getLast?.getD env.own)) hbinding

theorem inline? (s : Store) (ref : InlineRef) : (view s).inline? ref = s.inline? ref :=
  congrArg (fun inlines : Array Value => inlines[ref.index]?) (h.inlines s)

theorem thunk? (s : Store) (id : ThunkId) : (view s).thunk? id = s.thunk? id :=
  congrArg (fun thunks : Array Thunk => thunks[id.index]?) (h.thunks s)

theorem nextFrame (s : Store) : (view s).nextFrame = s.nextFrame :=
  congrArg (fun frames : Array (Fields Binding) => FrameId.mk frames.size) (h.frames s)

theorem nextThunk (s : Store) : (view s).nextThunk = s.nextThunk :=
  congrArg (fun thunks : Array Thunk => ThunkId.mk thunks.size) (h.thunks s)

theorem nextInline (s : Store) : (view s).nextInline = s.nextInline :=
  congrArg (fun inlines : Array Value => InlineRef.mk inlines.size) (h.inlines s)

theorem nextFunction (s : Store) : (view s).nextFunction = s.nextFunction :=
  congrArg FunctionId.mk (h.functions s)

/-! #### What is written -/

theorem bind (s : Store) (frame : FrameId) (name : String) (b : Binding) :
    (view s).bind frame name b = view (s.bind frame name b) := by
  show { view s with frames := (view s).frames.modify frame.index (Fields.insert name b) } = _
  rw [h.frames, h.setFrames]
  rfl

/-- A binding that has been saved is put back in the same way. -/
theorem rebind (s : Store) (frame : FrameId) (name : String) (saved : Option Binding) :
    (view s).rebind frame name saved = view (s.rebind frame name saved) := by
  cases saved with
  | some b => exact h.bind s frame name b
  | none =>
    show { view s with frames := (view s).frames.modify frame.index (Fields.erase name) } = _
    rw [h.frames, h.setFrames]
    rfl

theorem define (s : Store) (env : Env) (name : String) (v : Value) :
    (view s).define env name v = view (s.define env name v) :=
  h.bind s env.own name _

theorem assignOuter (s : Store) (env : Env) (name : String) (v : Value) :
    (view s).assignOuter env name v = view (s.assignOuter env name v) := by
  show (view s).bind ((view s).assignedFrame env name) name (.value v) = _
  rw [h.assignedFrame, h.bind]
  rfl

theorem addFrame (s : Store) (bindings : Fields Binding) :
    (view s).addFrame bindings = view (s.addFrame bindings) := by
  show { view s with frames := (view s).frames.push bindings } = _
  rw [h.frames, h.setFrames]
  rfl

theorem bindDeferred (s : Store) (frame : FrameId) (name : String) (e : Expr) (env : Env) :
    (view s).bindDeferred frame name e env = view (s.bindDeferred frame name e env) := by
  show ((view s).addThunk e env).bind frame name (.deferred (view s).nextThunk) = _
  rw [h.addThunk, h.nextThunk, h.bind]
  rfl

/-- The arguments of a call are deferred one after the other, each of them before the view as well
as after it. -/
theorem deferArguments (frame : FrameId) (env : Env) (params : List String) (args : List Expr)
    (s : Store) :
    Evaluator.deferArguments frame env params args (view s) =
      view (Evaluator.deferArguments frame env params args s) :=
  List.foldl_hom view fun t pair => h.bindDeferred t frame pair.1 pair.2 env

end Store.Unnoticed

/-! ### Invariants -/

/-- The expressions that are evaluated, in the same environment, when this one is. -/
def Expr.parts : Expr → List Expr
  | .lit .. | .sym .. | .lambda .. | .inline .. => []
  | .call func args _ => func :: args
  | .paren inner _ => [inner]
  | .block stmts _ => stmts
  | .list items _ => items
  | .record fields _ => fields.map Prod.snd
  | .field target .. => [target]
  | .ifThen cond yes _ => [cond, yes]
  | .ifElse cond yes no _ => [cond, yes, no]
  | .assign _ value .. => [value]

/-- An assumption about what an evaluation meets. -/
structure Invariant where
  env : Env → Prop
  store : Store → Prop
  /-- Whether a computation may give up where the one it is compared with does not. -/
  mayGiveUp : Prop
  /-- The expressions that are evaluated in an environment. -/
  code : Env → Expr → Prop := fun _ _ => True
  /-- The closures that are called. -/
  closure : Closure → Prop := fun c => env c.env
  /-- What the store of a computation is in the one that it is compared with. -/
  view : Store → Store := id

namespace Invariant

variable (inv : Invariant) {α β : Type}

/-- A value that holds good closures only. -/
def value (v : Value) : Prop := v.Runs inv.closure

/-- A binding to such a value, or to a deferred one. -/
def binding : Binding → Prop
  | .value v => inv.value v
  | .deferred _ => True

/-- Two computations do the same in this store, leave it good, and have a good result. -/
def AgreesAt (good : α → Prop) (x y : Eval α) (s : Store) : Prop :=
  inv.mayGiveUp ∧ (x s).1 = .outOfFuel ∨
    y (inv.view s) = ((x s).1, inv.view (x s).2) ∧ inv.store (x s).2 ∧
      ∀ a, (x s).1 = .ok a → good a

/-- They do so in every good store. -/
def Agrees (good : α → Prop) (x y : Eval α) : Prop :=
  ∀ s, inv.store s → inv.AgreesAt good x y s

/-- Two evaluators agree on good expressions and functions. -/
structure Agree (ev other : Evaluator) : Prop where
  eval : ∀ env, inv.env env → ∀ e, inv.code env e →
    inv.Agrees inv.value (ev.eval env e) (other.eval env e)
  apply : ∀ env, inv.env env → ∀ f, inv.value f → ∀ args, (∀ v ∈ args, inv.value v) →
    inv.Agrees inv.value (ev.apply env f args) (other.apply env f args)

/-! ### What must be known about an invariant -/

/-- What makes an invariant fit for all of the interpreter, except the demands of deferred values
and the chains that are evaluated step by step. -/
structure Sound : Prop where
  unnoticed : Store.Unnoticed inv.view
  /-- The environments within a good one are good. -/
  within : ∀ {s env}, inv.store s → inv.env env → inv.env (env.within s.nextFrame)
  ofBinding : ∀ {s frame name v}, inv.store s → s.binding? frame name = some (.value v) →
    inv.value v
  ofInline : ∀ {s ref v}, inv.store s → s.inline? ref = some v → inv.value v
  /-- An expression that is evaluated in an environment may be so in one within it. -/
  codeWithin : ∀ {s env e}, inv.store s → inv.code env e → inv.code (env.within s.nextFrame) e
  parts : ∀ {env e}, inv.code env e → ∀ part ∈ e.parts, inv.code env part
  step : ∀ {env right}, inv.code env right → ∀ kind : PipeKind, inv.code env (kind.step right)
  spliced : ∀ env label ref span, inv.code env (.inline label ref span)
  lambda : ∀ {env params body span}, inv.env env → inv.code env (.lambda params body span) →
    ∀ id, inv.closure ⟨id, params, body, env⟩
  /-- A step of a functional sequence is a closure. -/
  stepClosure : ∀ {env e}, inv.env env → inv.code env e →
    ∀ id, inv.closure ⟨id, [placeholder], e, env⟩
  closureEnv : ∀ {c}, inv.closure c → inv.env c.env
  body : ∀ {s c}, inv.store s → inv.closure c → inv.code (c.env.within s.nextFrame) c.body
  assign : ∀ {s env name at_ value span v}, inv.store s → inv.env env →
    inv.code env (.assign (.sym name at_) value .inner span) → inv.value v →
      inv.store (s.define env name v)
  assignOuter : ∀ {s env name at_ value span v}, inv.store s → inv.env env →
    inv.code env (.assign (.sym name at_) value .outer span) → inv.value v →
      inv.store (s.assignOuter env name v)
  /-- The target of a compound link is assigned to. -/
  assignTarget : ∀ {s env target name v}, inv.store s → inv.env env → inv.code env target →
    target.targetName = .ok name → inv.value v → inv.store (s.define env name v)
  addFrame : ∀ {s bindings}, inv.store s →
    (∀ name b, Fields.get? name bindings = some b → inv.binding b) →
      inv.store (s.addFrame bindings)
  /-- Expressions are deferred in a frame of their own. -/
  defer : ∀ {s env params args}, inv.store s → inv.env env → (∀ e ∈ args, inv.code env e) →
    inv.store (Evaluator.deferArguments s.nextFrame env params args (s.addFrame []))
  addInline : ∀ {s v}, inv.store s → inv.value v → inv.store (s.addInline v)
  addFunction : ∀ {s}, inv.store s → inv.store s.addFunction
  print : ∀ {s line}, inv.store s → inv.store (s.print line)

/-- What makes an invariant fit for the interpreter if it is about environments and stores alone
and kept by every write to a frame that a good environment sees. -/
structure Lawful : Prop where
  unnoticed : Store.Unnoticed inv.view
  /-- Every expression is good. -/
  code : ∀ env e, inv.code env e := by intros; trivial
  /-- A closure is good if its environment is. -/
  closure : ∀ c, inv.closure c ↔ inv.env c.env := by intros; rfl
  /-- The environments within a good one are good. -/
  within : ∀ {s env}, inv.store s → inv.env env → inv.env (env.within s.nextFrame)
  ofBinding : ∀ {s frame name v}, inv.store s → s.binding? frame name = some (.value v) →
    inv.value v
  ofInline : ∀ {s ref v}, inv.store s → s.inline? ref = some v → inv.value v
  bind : ∀ {s env name b}, inv.store s → inv.env env → inv.binding b →
    inv.store (s.bind env.own name b)
  unbind : ∀ {s env name}, inv.store s → inv.env env → inv.store (s.unbind env.own name)
  assignOuter : ∀ {s env name v}, inv.store s → inv.env env → inv.value v →
    inv.store (s.assignOuter env name v)
  addFrame : ∀ {s bindings}, inv.store s →
    (∀ name b, Fields.get? name bindings = some b → inv.binding b) →
      inv.store (s.addFrame bindings)
  addThunk : ∀ {s e env}, inv.store s → inv.env env → inv.store (s.addThunk e env)
  addInline : ∀ {s v}, inv.store s → inv.value v → inv.store (s.addInline v)
  addFunction : ∀ {s}, inv.store s → inv.store s.addFunction
  print : ∀ {s line}, inv.store s → inv.store (s.print line)

variable {inv}

/-- Where every closure is good, every value is. -/
theorem value_of_forall (h : ∀ c, inv.closure c) (v : Value) : inv.value v := fun c _ => h c

/-- A lawful invariant is sound: every expression is good, and an expression is deferred by writes
that the invariant knows. -/
theorem Lawful.sound (hinv : inv.Lawful) : inv.Sound where
  unnoticed := hinv.unnoticed
  within := hinv.within
  ofBinding := hinv.ofBinding
  ofInline := hinv.ofInline
  codeWithin _ _ := hinv.code _ _
  parts _ _ _ := hinv.code _ _
  step _ _ := hinv.code _ _
  spliced _ _ _ _ := hinv.code _ _
  lambda henv _ _ := (hinv.closure _).2 henv
  stepClosure henv _ _ := (hinv.closure _).2 henv
  closureEnv hc := (hinv.closure _).1 hc
  body _ _ := hinv.code _ _
  assign hs henv _ hv := hinv.bind hs henv hv
  assignOuter hs henv _ hv := hinv.assignOuter hs henv hv
  assignTarget hs henv _ _ hv := hinv.bind hs henv hv
  addFrame := hinv.addFrame
  defer {s env params args} hs henv _ := by
    -- the new frame is the own frame of an environment within the caller's
    have hinner := hinv.within hs henv
    have hadded : inv.store (s.addFrame []) := hinv.addFrame hs (by rintro name b hb; cases hb)
    refine List.foldlRecOn _ _ hadded fun t ht pair _ => ?_
    exact hinv.bind (hinv.addThunk ht henv) hinner trivial
  addInline := hinv.addInline
  addFunction := hinv.addFunction
  print := hinv.print

/-! ### Agreement in one store -/

namespace AgreesAt

variable {good : α → Prop} {x y x' y' : Eval α} {s t : Store}

/-- How both computations end, given outright. -/
theorem of_eq {r : Outcome EvalError α} (hx : x s = (r, t)) (hy : y (inv.view s) = (r, inv.view t))
    (hstore : inv.store t) (hgood : ∀ a, r = .ok a → good a) : inv.AgreesAt good x y s := by
  refine .inr ⟨?_, ?_, ?_⟩
  · rw [hy, hx]
  · rw [hx]
    exact hstore
  · rw [hx]
    exact hgood

/-- Two computations that go on as two others do. -/
theorem congr (hx : x s = x' t) (hy : y (inv.view s) = y' (inv.view t))
    (h : inv.AgreesAt good x' y' t) : inv.AgreesAt good x y s := by
  rcases h with ⟨hmay, hlost⟩ | ⟨heq, hstore, hgood⟩
  · exact .inl ⟨hmay, by rw [hx]; exact hlost⟩
  · exact .of_eq hx (hy.trans heq) hstore hgood

end AgreesAt

/-! ### Single steps -/

namespace Agrees

variable {good : α → Prop} {next : β → Prop}

theorem pure {a : α} (h : good a) : inv.Agrees good (Pure.pure a) (Pure.pure a) := by
  intro s hs
  refine .of_eq rfl rfl hs ?_
  rintro b hb
  cases hb
  exact h

/-- A computation that fails agrees with itself, and has no result that would have to be good. -/
theorem fail (e : EvalError) : inv.Agrees good (Eval.fail e) (Eval.fail e) := by
  intro s hs
  refine .of_eq rfl rfl hs ?_
  rintro b hb
  cases hb

/-- What is read must be the same in the view. -/
theorem read {f : Store → α} (hview : ∀ s, f (inv.view s) = f s)
    (h : ∀ s, inv.store s → good (f s)) : inv.Agrees good (Eval.read f) (Eval.read f) := by
  intro s hs
  refine .of_eq rfl ?_ hs ?_
  · rw [Eval.read_apply, hview]
  · rintro b hb
    cases hb
    exact h s hs

/-- What is written must be the same before and after the view. -/
theorem update {f : Store → Store} (hview : ∀ s, f (inv.view s) = inv.view (f s))
    (h : ∀ s, inv.store s → inv.store (f s)) :
    inv.Agrees (fun _ => True) (Eval.update f) (Eval.update f) := by
  intro s hs
  refine .of_eq rfl ?_ (h s hs) fun _ _ => trivial
  rw [Eval.update_apply, hview]

/-- What is made must come out the same, and be put in the store before or after the view alike. -/
theorem make {f : Store → α × Store}
    (hview : ∀ s, f (inv.view s) = ((f s).1, inv.view (f s).2))
    (h : ∀ s, inv.store s → good (f s).1 ∧ inv.store (f s).2) :
    inv.Agrees good (Eval.make f) (Eval.make f) := by
  intro s hs
  obtain ⟨hgood, hstore⟩ := h s hs
  refine .of_eq rfl ?_ hstore ?_
  · rw [Eval.make_apply, hview]
  · rintro b hb
    cases hb
    exact hgood

theorem ofExcept {x : Except EvalError α} (h : ∀ a, x = .ok a → good a) :
    inv.Agrees good (Eval.ofExcept x) (Eval.ofExcept x) := by
  cases x with
  | error e => exact fail e
  | ok a => exact pure (h a rfl)

/-! ### Sequences -/

/-- Two computations that agree may be followed by two that agree on every good result of theirs. -/
theorem bind {x y : Eval α} {f g : α → Eval β} (hx : inv.Agrees good x y)
    (hf : ∀ a, good a → inv.Agrees next (f a) (g a)) : inv.Agrees next (x >>= f) (y >>= g) := by
  intro s hs
  rcases hxs : x s with ⟨r, t⟩
  rcases hx s hs with ⟨hmay, hlost⟩ | ⟨heq, hstore, hgood⟩
  -- where the first part gives up, so does the whole
  · rw [hxs] at hlost
    cases hlost
    exact .inl ⟨hmay, by rw [Eval.bind_of_outOfFuel hxs]⟩
  -- otherwise both go on from the same result, the second one in the view of the store
  · rw [hxs] at heq hstore hgood
    cases r with
    | ok a => exact .congr (Eval.bind_of_ok hxs) (Eval.bind_of_ok heq) (hf a (hgood a rfl) t hstore)
    | error e =>
      exact .of_eq (Eval.bind_of_error hxs) (Eval.bind_of_error heq) hstore (by rintro b ⟨⟩)
    | outOfFuel =>
      exact .of_eq (Eval.bind_of_outOfFuel hxs) (Eval.bind_of_outOfFuel heq) hstore
        (by rintro b ⟨⟩)

/-- Where neither gives up before the other, they do the same and the invariant is kept. -/
theorem of_not_mayGiveUp {x y : Eval α} (hx : inv.Agrees good x y) (hmay : ¬ inv.mayGiveUp)
    {s : Store} (hs : inv.store s) :
    y (inv.view s) = ((x s).1, inv.view (x s).2) ∧ inv.store (x s).2 ∧
      ∀ a, (x s).1 = .ok a → good a :=
  (hx s hs).resolve_left fun hlost => hmay hlost.1

/-- The store may be tidied up at the end, in a way that goes through the view. -/
theorem ensuring {x y : Eval α} {tidy : Store → Store} (hx : inv.Agrees good x y)
    (hview : ∀ s, tidy (inv.view s) = inv.view (tidy s))
    (h : ∀ s, inv.store s → inv.store (tidy s)) :
    inv.Agrees good (x.ensuring tidy) (y.ensuring tidy) := by
  intro s hs
  rcases hx s hs with hlost | ⟨heq, hstore, hgood⟩
  · exact .inl hlost
  · refine .of_eq (Eval.ensuring_apply x tidy s) ?_ (h _ hstore) hgood
    rw [Eval.ensuring_apply, heq, hview]

/-- Agreement goes through the items of a list, whose results are all good. -/
theorem mapM {γ : Type} {f g : γ → Eval α} {items : List γ}
    (h : ∀ c ∈ items, inv.Agrees good (f c) (g c)) :
    inv.Agrees (fun as => ∀ a ∈ as, good a) (items.mapM f) (items.mapM g) := by
  induction items with
  | nil => exact pure (by simp)
  | cons c rest ih =>
    rw [List.mapM_cons, List.mapM_cons]
    refine bind (h c (by simp)) fun a ha => ?_
    refine bind (ih fun d hd => h d (by simp [hd])) fun as has => ?_
    exact pure (by simpa using ⟨ha, has⟩)

/-- It goes through a list with a good value that each item makes into the next one. -/
theorem foldlM {γ : Type} {f g : α → γ → Eval α} {items : List γ} {a : α} (ha : good a)
    (h : ∀ a, good a → ∀ c ∈ items, inv.Agrees good (f a c) (g a c)) :
    inv.Agrees good (items.foldlM f a) (items.foldlM g a) := by
  induction items generalizing a with
  | nil => exact pure ha
  | cons c rest ih =>
    rw [List.foldlM_cons, List.foldlM_cons]
    refine bind (h a ha c (by simp)) fun b hb => ?_
    exact ih hb fun a ha d hd => h a ha d (by simp [hd])

end Agrees

end Invariant

end PipeLang
