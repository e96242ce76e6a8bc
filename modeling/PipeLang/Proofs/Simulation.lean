import PipeLang.Eval.Expr
import PipeLang.Proofs.LikeValues

/-!
# Two runs side by side

To compare two runs, of two programs or of one program from two stores, is to keep a relation
between them through everything that they do.  A `Simulation` says which expressions, closures,
bindings and deferred values correspond; `Simulation.Corresponds` puts this together for stores.
Frames and functions have the same identities in both runs, deferred values and spliced values need
not.  What has been made on the way can matter to what corresponds, so all of this is said in a
world, and worlds go on: what corresponds in one corresponds in all later ones.

Two computations are related, `Simulation.Relates`, if from stores that correspond they come to
outcomes and to stores that correspond again.  Such relations go through sequences of computations
(`Relates.bind`, `Relates.mapM`, `Relates.foldlM`).  A run may be lost on the other one: a
simulation can let one of them give up, or the first one fail with certain errors, and says nothing
about what the other one does then.

`Simulation.Sound` collects what must be known about a simulation for the whole interpreter to keep
it.  As in `Invariant.Sound`, that is mostly what is evaluated within an expression, and what may be
bound where.  What each way of writing does to the stores follows once for all simulations
(`Corresponds.bind`, `Corresponds.addFrame`, `Corresponds.deferArguments`, `Corresponds.setThunk`).
-/

namespace PipeLang

/-! ### Bindings after a write -/

namespace Store

/-- A binding is found where it was written, provided that the frame exists; everything else is
found as before. -/
theorem binding?_bind (s : Store) (frame other : FrameId) (name key : String) (b : Binding) :
    (s.bind frame name b).binding? other key =
      if other = frame ∧ key = name ∧ frame.index < s.frames.size then some b
      else s.binding? other key := by
  split
  · next h =>
    obtain ⟨rfl, rfl, hlt⟩ := h
    exact binding?_bind_self s other key b hlt
  · next h =>
    by_cases hsame : other = frame ∧ key = name
    -- a frame that does not exist is not written
    · have hge : s.frames.size ≤ frame.index := Nat.not_lt.1 fun hlt => h ⟨hsame.1, hsame.2, hlt⟩
      have hframes : s.frames.modify frame.index (Fields.insert name b) = s.frames := by
        simp [Array.modify, Array.modifyM, Nat.not_lt.2 hge]
      rw [bind, hframes]
    · exact binding?_bind_of_ne (not_and_or.1 hsame) s b

/-- What was taken away is not found any more, and everything else as before. -/
theorem binding?_unbind (s : Store) (frame other : FrameId) (name key : String) :
    (s.unbind frame name).binding? other key =
      if other = frame ∧ key = name then none else s.binding? other key := by
  rw [binding?, binding?]
  -- either the frame was not there to be changed, or it is the one that is read
  rcases bindings_modify_eq_or s frame other (Fields.erase name) with heq | ⟨rfl, heq⟩
  · have hsame : (s.unbind frame name).bindings other = s.bindings other := heq
    split
    · next h =>
      obtain ⟨rfl, rfl⟩ := h
      rcases Nat.lt_or_ge other.index s.frames.size with hlt | hge
      · rw [bindings_unbind s other other key hlt, if_pos rfl, Fields.get?_erase_self]
      · rw [hsame, bindings, Array.getElem?_eq_none hge]
        rfl
    · rw [hsame]
  · have hsame : (s.unbind other name).bindings other = (s.bindings other).erase name := heq
    rw [hsame]
    split
    · next h => rw [h.2, Fields.get?_erase_self]
    · next h => exact Fields.get?_erase_of_ne (fun hkey => h ⟨rfl, hkey⟩) _

/-- A new frame has the next identity, which no frame had before. -/
theorem binding?_addFrame (s : Store) (bindings : Fields Binding) (frame : FrameId)
    (key : String) :
    (s.addFrame bindings).binding? frame key =
      if frame = s.nextFrame then bindings.get? key else s.binding? frame key := by
  rw [binding?]
  split
  · next h => rw [h, bindings_addFrame_nextFrame]
  · next h => rw [bindings_addFrame_of_ne h, binding?]

/-- A deferred value that does not exist is not made by setting it. -/
theorem thunk?_setThunk (s : Store) (id other : ThunkId) (t : Thunk) :
    (s.setThunk id t).thunk? other =
      if other = id then (s.thunk? id).map fun _ => t else s.thunk? other := by
  split
  · next h =>
    subst h
    rcases Nat.lt_or_ge other.index s.thunks.size with hlt | hge
    · rw [thunk?_setThunk_self hlt, thunk?, Array.getElem?_eq_getElem hlt]
      rfl
    · rw [thunk?, thunk?, Array.getElem?_eq_none (by simpa [setThunk] using hge),
        Array.getElem?_eq_none hge]
      rfl
  · next h => exact thunk?_setThunk_of_ne h s t

/-- A spliced value is found under the next reference. -/
theorem inline?_addInline (s : Store) (v : Value) (ref : InlineRef) :
    (s.addInline v).inline? ref = if ref = s.nextInline then some v else s.inline? ref := by
  obtain ⟨i⟩ := ref
  simp only [inline?, addInline, nextInline, InlineRef.mk.injEq, Array.getElem?_push]

end Store

/-! ### How much a store holds -/

/-- How many frames, deferred values and spliced values there are. -/
structure Sizes where
  frames : Nat
  thunks : Nat
  inlines : Nat

namespace Sizes

/-- There are no fewer of anything. -/
structure Le (x y : Sizes) : Prop where
  frames : x.frames ≤ y.frames
  thunks : x.thunks ≤ y.thunks
  inlines : x.inlines ≤ y.inlines

theorem Le.refl (z : Sizes) : z.Le z := ⟨Nat.le_refl _, Nat.le_refl _, Nat.le_refl _⟩

/-- More than more is more. -/
theorem Le.trans {x y z : Sizes} (h : x.Le y) (h' : y.Le z) : x.Le z :=
  ⟨Nat.le_trans h.frames h'.frames, Nat.le_trans h.thunks h'.thunks,
    Nat.le_trans h.inlines h'.inlines⟩

def addFrame (z : Sizes) : Sizes := { z with frames := z.frames + 1 }

def addThunk (z : Sizes) : Sizes := { z with thunks := z.thunks + 1 }

def addInline (z : Sizes) : Sizes := { z with inlines := z.inlines + 1 }

theorem le_addFrame (z : Sizes) : z.Le z.addFrame := ⟨Nat.le_succ _, Nat.le_refl _, Nat.le_refl _⟩

theorem le_addThunk (z : Sizes) : z.Le z.addThunk := ⟨Nat.le_refl _, Nat.le_succ _, Nat.le_refl _⟩

theorem le_addInline (z : Sizes) : z.Le z.addInline := ⟨Nat.le_refl _, Nat.le_refl _, Nat.le_succ _⟩

end Sizes

/-- How much the store holds. -/
def Store.sizes (s : Store) : Sizes := ⟨s.frames.size, s.thunks.size, s.inlines.size⟩

namespace Store

/-- To write to a frame makes nothing. -/
theorem sizes_bind (s : Store) (frame : FrameId) (name : String) (b : Binding) :
    (s.bind frame name b).sizes = s.sizes := by
  simp [sizes, bind]

theorem sizes_unbind (s : Store) (frame : FrameId) (name : String) :
    (s.unbind frame name).sizes = s.sizes := by
  simp [sizes, unbind]

theorem sizes_addFrame (s : Store) (bindings : Fields Binding) :
    (s.addFrame bindings).sizes = s.sizes.addFrame := by
  simp [sizes, addFrame, Sizes.addFrame]

theorem sizes_addThunk (s : Store) (e : Expr) (env : Env) :
    (s.addThunk e env).sizes = s.sizes.addThunk := by
  simp [sizes, addThunk, Sizes.addThunk]

theorem sizes_addInline (s : Store) (v : Value) :
    (s.addInline v).sizes = s.sizes.addInline := by
  simp [sizes, addInline, Sizes.addInline]

theorem sizes_setThunk (s : Store) (id : ThunkId) (t : Thunk) :
    (s.setThunk id t).sizes = s.sizes := by
  simp [sizes, setThunk]

end Store

/-! ### Outcomes -/

/-- The same error, up to texts in it that quote the source. -/
inductive EvalError.Alike (quote : String → String → Prop) : EvalError → EvalError → Prop
  | same (e : EvalError) : EvalError.Alike quote e e
  | notFunction {a b : String} (h : quote a b) :
      EvalError.Alike quote (.notFunction a) (.notFunction b)
  | arity {a b : String} (h : quote a b) (expected : Arity) (got : Nat) :
      EvalError.Alike quote (.arity a expected got) (.arity b expected got)
  | assignTarget {a b : String} (h : quote a b) :
      EvalError.Alike quote (.assignTarget a) (.assignTarget b)

/-- If only equal code is quoted, errors are equal. -/
theorem EvalError.Alike.eq {e e' : EvalError} (h : EvalError.Alike Eq e e') : e' = e := by
  cases h with
  | same => rfl
  | notFunction h | assignTarget h => rw [h]
  | arity h => rw [h]

/-- Two computations end in the same way. -/
inductive Outcome.Alike {ε α β : Type} (error : ε → ε → Prop) (good : α → β → Prop) :
    Outcome ε α → Outcome ε β → Prop
  | ok {a : α} {b : β} (h : good a b) : Outcome.Alike error good (.ok a) (.ok b)
  | error {e e' : ε} (h : error e e') : Outcome.Alike error good (.error e) (.error e')
  | outOfFuel : Outcome.Alike error good .outOfFuel .outOfFuel

/-- The bindings are to values that are alike, or to related deferred values. -/
inductive Binding.Alike (l : Likeness) (thunk : ThunkId → ThunkId → Prop) :
    Binding → Binding → Prop
  | value {v v' : Value} (h : v.Like l v') : Binding.Alike l thunk (.value v) (.value v')
  | deferred {id id' : ThunkId} (h : thunk id id') :
      Binding.Alike l thunk (.deferred id) (.deferred id')

/-! ### Simulations -/

/-- How two runs correspond.  Environments are the same in both. -/
structure Simulation where
  World : Type
  /-- The second world comes after the first one, or is the same. -/
  le : World → World → Prop
  /-- The world is for so much in the store of the first run. -/
  sized : World → Sizes → Prop
  /-- The world once there is so much in it. -/
  resize : World → Sizes → World
  env : World → Env → Prop
  /-- The expressions that are evaluated in an environment. -/
  code : World → Env → Expr → Expr → Prop
  /-- The closures that are called. -/
  closure : World → Closure → Closure → Prop
  /-- What a name is bound to in a frame. -/
  slot : World → FrameId → String → Binding → Binding → Prop
  /-- The expressions that are deferred but not evaluated like others. -/
  exceptional : World → Env → Expr → Expr → Prop := fun _ _ _ _ => False
  /-- The names that are never taken out of a frame. -/
  kept : FrameId → String → Prop := fun _ _ => False
  /-- The deferred values that stand for each other. -/
  thunk : World → ThunkId → ThunkId → Prop := fun _ => Eq
  /-- How many deferred values there are. -/
  thunks : Nat → Nat → Prop := Eq
  /-- The spliced values that stand for each other. -/
  ref : World → InlineRef → InlineRef → Prop := fun _ => Eq
  /-- How many spliced values there are. -/
  refs : Nat → Nat → Prop := Eq
  /-- What is known of the deferred values that stand for no other ones, and of the spliced values
  of the first run. -/
  lone : Array Thunk → Array Thunk → Array Value → Prop := fun _ _ _ => True
  /-- Whether the pipe operators may be passed on as values. -/
  free : Prop := True
  /-- The names that are bound in new frames. -/
  name : String → Prop := fun _ => True
  /-- The operators of a pipe whose symbols stand for each other. -/
  operator : PipeOp → PipeOp → Prop := fun _ _ => False
  /-- The left sides of a compound link. -/
  target : World → Env → Expr → Expr → Prop := code
  /-- The spans of parentheses. -/
  span : Span → Span → Prop := fun _ _ => True
  /-- The texts of callees and of targets. -/
  quote : String → String → Prop := Eq
  /-- The errors with which the first run may end whatever the second one does. -/
  mayFail : EvalError → Prop := fun _ => False
  /-- Whether the first run may give up before the second one. -/
  firstMayGiveUp : Prop := False
  /-- Whether the second run may give up before the first one. -/
  secondMayGiveUp : Prop := False

namespace Simulation

variable (S : Simulation) {α β γ δ : Type}

/-- When values correspond. -/
def like (w : S.World) : Likeness where
  closure := S.closure w
  special s := S.free ∨ ∀ op, s ≠ .pipe op
  name := S.name

/-- The values correspond. -/
def value (w : S.World) (v v' : Value) : Prop := v.Like (S.like w) v'

/-- The bindings correspond, and may be read. -/
def Reads (w : S.World) : Binding → Binding → Prop := Binding.Alike (S.like w) (S.thunk w)

/-- The deferred values are equally far evaluated. -/
inductive State (w : S.World) : Thunk → Thunk → Prop
  | pending {env : Env} {e e' : Expr} (henv : S.env w env) (h : S.code w env e e') :
      State w (.pending e env) (.pending e' env)
  | exceptional {env : Env} {e e' : Expr} (h : S.exceptional w env e e') :
      State w (.pending e env) (.pending e' env)
  | evaluating : State w .evaluating .evaluating
  | forced {v v' : Value} (h : S.value w v v') : State w (.forced v) (.forced v')

/-- The stores correspond. -/
structure Corresponds (w : S.World) (s s' : Store) : Prop where
  sized : S.sized w s.sizes
  frames : s'.frames.size = s.frames.size
  bindings : ∀ frame name,
    Option.Rel (S.slot w frame name) (s.binding? frame name) (s'.binding? frame name)
  kept : ∀ frame name, S.kept frame name → (s.binding? frame name).isSome
  thunks : ∀ id id', S.thunk w id id' → Option.Rel (S.State w) (s.thunk? id) (s'.thunk? id')
  thunkSizes : S.thunks s.thunks.size s'.thunks.size
  inlines : ∀ ref ref', S.ref w ref ref' →
    Option.Rel (S.value w) (s.inline? ref) (s'.inline? ref')
  inlineSizes : S.refs s.inlines.size s'.inlines.size
  lone : S.lone s.thunks s'.thunks s.inlines
  functions : s'.functions = s.functions
  depth : s'.depth = s.depth
  printed : s'.printed = s.printed

/-- One of the runs is lost on the other one. -/
def Lost (r : Outcome EvalError α) (r' : Outcome EvalError β) : Prop :=
  (∃ e, r = .error e ∧ S.mayFail e) ∨ S.firstMayGiveUp ∧ r = .outOfFuel ∨
    S.secondMayGiveUp ∧ r' = .outOfFuel

/-- The outcomes and the stores correspond, unless a run is lost. -/
def Ends (w : S.World) (good : S.World → α → β → Prop) (x : Outcome EvalError α × Store)
    (y : Outcome EvalError β × Store) : Prop :=
  S.Lost x.1 y.1 ∨ ∃ w', S.le w w' ∧ S.Corresponds w' x.2 y.2 ∧
    Outcome.Alike (EvalError.Alike S.quote) (good w') x.1 y.1

/-- From corresponding stores two computations come to corresponding outcomes and stores. -/
def Relates (w : S.World) (good : S.World → α → β → Prop) (x : Eval α) (y : Eval β) : Prop :=
  ∀ s s', S.Corresponds w s s' → S.Ends w good (x s) (y s')

/-- What corresponds in one world does so in the later ones. -/
def Lasts (good : S.World → α → β → Prop) : Prop :=
  ∀ {w w'}, S.le w w' → ∀ {a b}, good w a b → good w' a b

/-- The expressions have the same form, and what is evaluated in them corresponds. -/
inductive Matches (w : S.World) (env : Env) : Expr → Expr → Prop
  | lit (literal : Literal) (s s' : Span) : Matches w env (.lit literal s) (.lit literal s')
  | sym (name : String) (s s' : Span) : Matches w env (.sym name s) (.sym name s')
  | inline (label label' : String) (ref ref' : InlineRef) (s s' : Span) :
      Matches w env (.inline label ref s) (.inline label' ref' s')
  | paren {e e' : Expr} (h : S.code w env e e') {s s' : Span} (hspan : S.span s s') :
      Matches w env (.paren e s) (.paren e' s')
  | block {es es' : List Expr} (h : List.Forall₂ (S.code w env) es es') (s s' : Span) :
      Matches w env (.block es s) (.block es' s')
  | list {es es' : List Expr} (h : List.Forall₂ (S.code w env) es es') (s s' : Span) :
      Matches w env (.list es s) (.list es' s')
  | record {fields fields' : List (String × Expr)}
      (h : Fields.Alike (S.code w env) fields fields')
      (hnames : ∀ name ∈ fields.map Prod.fst, S.name name) (s s' : Span) :
      Matches w env (.record fields s) (.record fields' s')
  | field {e e' : Expr} (h : S.code w env e e') (name : String) (s s' : Span) :
      Matches w env (.field e name s) (.field e' name s')
  | lambda (params : List String) (body body' : Expr) (s s' : Span) :
      Matches w env (.lambda params body s) (.lambda params body' s')
  | ifThen {cond yes cond' yes' : Expr} (hcond : S.code w env cond cond')
      (hyes : S.code w env yes yes') (s s' : Span) :
      Matches w env (.ifThen cond yes s) (.ifThen cond' yes' s')
  | ifElse {cond yes no cond' yes' no' : Expr} (hcond : S.code w env cond cond')
      (hyes : S.code w env yes yes') (hno : S.code w env no no') (s s' : Span) :
      Matches w env (.ifElse cond yes no s) (.ifElse cond' yes' no' s')
  | assign (name : String) {e e' : Expr} (h : S.code w env e e') (scope : AssignScope)
      (at_ at' s s' : Span) :
      Matches w env (.assign (.sym name at_) e scope s) (.assign (.sym name at') e' scope s')
  /-- An assignment to anything but a name is an error. -/
  | badAssign {target target' : Expr} (hsym : ∀ name at_, target ≠ .sym name at_)
      (hsym' : ∀ name at_, target' ≠ .sym name at_) (hquote : S.quote target.print target'.print)
      (e e' : Expr) (scope : AssignScope) (s s' : Span) :
      Matches w env (.assign target e scope s) (.assign target' e' scope s')
  | call {func func' : Expr} {args args' : List Expr} (hfunc : S.code w env func func')
      (hargs : List.Forall₂ (S.code w env) args args') (s s' : Span) :
      Matches w env (.call func args s) (.call func' args' s')
  /-- Operators that stand for each other, between two sides. -/
  | operate {op op' : PipeOp} (hop : S.operator op op') {left left' right right' : Expr}
      (hleft : S.code w env left left') (hright : S.code w env right right')
      (hplain : right.pipeKind? = none)
      (htarget : op.kind = .compound → S.target w env left left') (at_ at' s s' : Span) :
      Matches w env (.call (.sym op.name at_) [left, right] s)
        (.call (.sym op'.name at') [left', right'] s')

/-- Two answers to what a target assigns to. -/
def SameTarget (x y : Except EvalError String) : Prop :=
  (∃ name, x = .ok name ∧ y = .ok name) ∨
    ∃ a b, x = .error (.assignTarget a) ∧ y = .error (.assignTarget b) ∧ S.quote a b

/-! ### What must be known about a simulation -/

/-- What makes the worlds of a simulation fit for growing stores. -/
structure Worlds : Prop where
  refl : ∀ w, S.le w w
  trans : ∀ {u v w}, S.le u v → S.le v w → S.le u w
  env : ∀ {w w' env}, S.le w w' → S.env w env → S.env w' env
  code : ∀ env, S.Lasts fun w => S.code w env
  closure : S.Lasts S.closure
  exceptional : ∀ env, S.Lasts fun w => S.exceptional w env
  target : ∀ env, S.Lasts fun w => S.target w env
  slot : ∀ frame name, S.Lasts fun w => S.slot w frame name
  thunk : S.Lasts S.thunk
  ref : S.Lasts S.ref
  le_resize : ∀ {w z z'}, S.sized w z → z.Le z' → S.le w (S.resize w z')
  sized_resize : ∀ {w z z'}, S.sized w z → z.Le z' → S.sized (S.resize w z') z'
  /-- Of the deferred values that there are, no other ones come to stand for each other. -/
  thunk_of_resize : ∀ {w z z' id id'}, S.sized w z → z.Le z' →
    S.thunk (S.resize w z') id id' → id.index < z.thunks → S.thunk w id id'
  /-- Nor of the spliced values. -/
  ref_of_resize : ∀ {w z z' ref ref'}, S.sized w z → z.Le z' →
    S.ref (S.resize w z') ref ref' → ref.index < z.inlines → S.ref w ref ref'

/-- What makes a simulation fit for the identities of deferred and of spliced values. -/
structure Numbered : Prop where
  thunk_unique : ∀ {w id id' other other'}, S.thunk w id id' → S.thunk w other other' →
    (id = other ↔ id' = other')
  thunk_lt_iff : ∀ {w m n id id'}, S.thunks m n → S.thunk w id id' →
    (id.index < m ↔ id'.index < n)
  thunk_next : ∀ {w z n}, S.sized w z → S.thunks z.thunks n →
    S.thunk (S.resize w z.addThunk) ⟨z.thunks⟩ ⟨n⟩
  thunks_succ : ∀ {m n}, S.thunks m n → S.thunks (m + 1) (n + 1)
  ref_lt_iff : ∀ {w m n ref ref'}, S.refs m n → S.ref w ref ref' →
    (ref.index < m ↔ ref'.index < n)
  ref_next : ∀ {w z n}, S.sized w z → S.refs z.inlines n →
    S.ref (S.resize w z.addInline) ⟨z.inlines⟩ ⟨n⟩
  refs_succ : ∀ {m n}, S.refs m n → S.refs (m + 1) (n + 1)
  lone_push : ∀ {w thunks thunks' values t t'}, S.thunks thunks.size thunks'.size →
    S.State w t t' → S.lone thunks thunks' values →
      S.lone (thunks.push t) (thunks'.push t') values
  lone_set : ∀ {w thunks thunks' values id id' t t'}, S.thunk w id id' → S.State w t t' →
    S.lone thunks thunks' values →
      S.lone (thunks.setIfInBounds id.index t) (thunks'.setIfInBounds id'.index t') values
  lone_inline : ∀ {thunks thunks' values v}, S.lone thunks thunks' values →
    S.lone thunks thunks' (values.push v)

/-- What makes a simulation fit for all of the interpreter, except the names that are looked up and
the chains that are evaluated step by step. -/
structure Sound : Prop extends Worlds S, Numbered S where
  forms : ∀ {w env e e'}, S.env w env → S.code w env e e' → S.Matches w env e e'
  print : ∀ {w env e e'}, S.code w env e e' → S.quote e.print e'.print
  /-- A symbol that is a pipe operator is written only where it may be passed on. -/
  operatorName : ∀ {w env op at_ e'}, S.code w env (.sym op at_) e' →
    (PipeOp.ofName? op).isSome → S.free
  kind : ∀ {op op'}, S.operator op op' → op.kind = op'.kind
  isLazy : ∀ {w env op op'}, S.env w env → S.operator op op' →
    env.mode.isLazy op.isLazy = env.mode.isLazy op'.isLazy
  targetName : ∀ {w env e e'}, S.env w env → S.target w env e e' →
    S.SameTarget e.targetName e'.targetName
  targetOfFree : ∀ {w env e e'}, S.free → S.code w env e e' → S.target w env e e'
  /-- The step of a right side corresponds, unless that is a pipe itself. -/
  step : ∀ {w env e e'}, S.code w env e e' → e.pipeKind? = none ∨ S.free → ∀ kind : PipeKind,
    S.code w env (kind.step e) (kind.step e')
  lambda : ∀ {w env params body body' s s'}, S.env w env →
    S.code w env (.lambda params body s) (.lambda params body' s') →
      ∀ id, S.closure w ⟨id, params, body, env⟩ ⟨id, params, body', env⟩
  /-- A step of a functional sequence is a closure. -/
  stepClosure : ∀ {w env e e'}, S.env w env → S.code w env e e' →
    ∀ id, S.closure w ⟨id, [placeholder], e, env⟩ ⟨id, [placeholder], e', env⟩
  closureEnv : ∀ {w c c'}, S.closure w c c' → c'.env = c.env ∧ S.env w c.env
  closureNames : ∀ {w c c'}, S.closure w c c' → ∀ name ∈ c.params, S.name name
  placeholderName : S.name placeholder
  body : ∀ {w z c c'}, S.sized w z → S.closure w c c' →
    S.code (S.resize w z.addFrame) (c.env.within ⟨z.frames⟩) c.body c'.body
  within : ∀ {w z env}, S.sized w z → S.env w env →
    S.env (S.resize w z.addFrame) (env.within ⟨z.frames⟩)
  codeWithin : ∀ {w z env e e'}, S.sized w z → S.env w env → S.code w env e e' →
    S.code (S.resize w z.addFrame) (env.within ⟨z.frames⟩) e e'
  inline : ∀ {w env label label' ref ref' at_ at'},
    S.code w env (.inline label ref at_) (.inline label' ref' at') →
      label = label' ∧ S.ref w ref ref'
  nowhere : S.span .nowhere .nowhere
  spliced : ∀ {w v v' ref ref'}, S.value w v v' → S.ref w ref ref' → ∀ {env}, S.env w env →
    ∀ {at_ at'}, S.span at_ at' → S.code w env (.inline v.show ref at_) (.inline v'.show ref' at')
  /-- In the frame that is made next, such names may be bound to anything that may be read. -/
  slotNew : ∀ {w u z name b b'}, S.sized w z → S.le w u → S.name name → S.Reads u b b' →
    S.slot u ⟨z.frames⟩ name b b'
  slotAssign : ∀ {w env name at_ at' e e' at₁ at₁' v v'}, S.env w env →
    S.code w env (.assign (.sym name at_) e .inner at₁) (.assign (.sym name at') e' .inner at₁') →
      S.value w v v' → S.slot w env.own name (.value v) (.value v')
  slotOuter : ∀ {w env frame name at_ at' e e' at₁ at₁' v v'}, S.env w env →
    S.code w env (.assign (.sym name at_) e .outer at₁) (.assign (.sym name at') e' .outer at₁') →
      (frame ∈ env.outer.dropLast ∨ env.outer.dropLast = [] ∧ frame = env.own) →
        S.value w v v' → S.slot w frame name (.value v) (.value v')
  /-- The target of a compound link is assigned to. -/
  slotTarget : ∀ {w env e e' name v v'}, S.env w env → S.target w env e e' →
    e.targetName = .ok name → S.value w v v' → S.slot w env.own name (.value v) (.value v')

/-- Two evaluators agree on corresponding expressions and functions. -/
structure Agree (ev other : Evaluator) : Prop where
  eval : ∀ {w env e e'}, S.env w env → S.code w env e e' →
    S.Relates w S.value (ev.eval env e) (other.eval env e')
  exceptional : ∀ {w env e e'}, S.exceptional w env e e' →
    S.Relates w S.value (ev.eval env e) (other.eval env e')
  /-- The symbols of operators refer to them. -/
  operator : ∀ {w env op op'}, S.env w env → S.operator op op' → ∀ at_ at',
    S.Relates w (fun _ f f' => f = .special (.pipe op) ∧ f' = .special (.pipe op'))
      (ev.eval env (.sym op.name at_)) (other.eval env (.sym op'.name at'))
  apply : ∀ {w env f f' args args'}, S.env w env → S.value w f f' →
    List.Forall₂ (S.value w) args args' →
      S.Relates w S.value (ev.apply env f args) (other.apply env f' args')

variable {S} {w : S.World}

/-- The next spliced value of the one run stands for the next one of the other alone. -/
theorem Numbered.ref_eq_next_iff (hS : S.Numbered) {m n : Nat} (h : S.refs m n)
    {ref ref' : InlineRef} (href : S.ref w ref ref') : ref = ⟨m⟩ ↔ ref' = ⟨n⟩ := by
  have hlt := hS.ref_lt_iff h href
  have hlt' := hS.ref_lt_iff (hS.refs_succ h) href
  obtain ⟨i⟩ := ref
  obtain ⟨j⟩ := ref'
  simp only [InlineRef.mk.injEq] at hlt hlt' ⊢
  omega

/-- Where no run may be lost. -/
theorem Ends.of_not_lost {good : S.World → α → β → Prop} {x : Outcome EvalError α × Store}
    {y : Outcome EvalError β × Store} (h : S.Ends w good x y) (hfail : ∀ e, ¬ S.mayFail e)
    (hfirst : ¬ S.firstMayGiveUp) (hsecond : ¬ S.secondMayGiveUp) :
    ∃ w', S.le w w' ∧ S.Corresponds w' x.2 y.2 ∧
      Outcome.Alike (EvalError.Alike S.quote) (good w') x.1 y.1 := by
  refine h.resolve_left ?_
  rintro (⟨e, -, hmay⟩ | ⟨hmay, -⟩ | ⟨hmay, -⟩)
  · exact hfail e hmay
  · exact hfirst hmay
  · exact hsecond hmay

/-! ### What lasts -/

theorem Worlds.value (hS : S.Worlds) : S.Lasts S.value := by
  intro w w' hle v v' h
  have hclosure : ∀ c d, (S.like w).closure c d → (S.like w').closure c d :=
    fun _ _ hc => hS.closure hle hc
  exact Value.Like.mono hclosure (fun _ h => h) (fun _ h => h) h

theorem Worlds.values (hS : S.Worlds) : S.Lasts fun w => List.Forall₂ (S.value w) :=
  fun hle _ _ h => h.imp fun _ _ hv => hS.value hle hv

theorem Worlds.codes (hS : S.Worlds) (env : Env) :
    S.Lasts fun w => List.Forall₂ (S.code w env) :=
  fun hle _ _ h => h.imp fun _ _ he => hS.code env hle he

/-- Deferred values that correspond go on to do so, pending or not. -/
theorem Worlds.state (hS : S.Worlds) : S.Lasts S.State := by
  intro w w' hle t t' h
  cases h with
  | pending henv h => exact .pending (hS.env hle henv) (hS.code _ hle h)
  | exceptional h => exact .exceptional (hS.exceptional _ hle h)
  | evaluating => exact .evaluating
  | forced h => exact .forced (hS.value hle h)

/-- What is related, if there is anything, is related by a weaker relation. -/
theorem optionRel_mono {R R' : α → β → Prop} (h : ∀ a b, R a b → R' a b) {x : Option α}
    {y : Option β} (hxy : Option.Rel R x y) : Option.Rel R' x y := by
  cases hxy with
  | none => exact .none
  | some hab => exact .some (h _ _ hab)

/-- To be related to oneself is enough to check for what is there. -/
theorem optionRel_self {R : α → α → Prop} {x : Option α} (h : ∀ a, x = some a → R a a) :
    Option.Rel R x x := by
  cases x with
  | none => exact .none
  | some a => exact .some (h a rfl)

/-- Conversely what is there is related to itself. -/
theorem of_optionRel_self {R : α → α → Prop} {x : Option α} {a : α} (h : Option.Rel R x x)
    (hx : x = some a) : R a a := by
  subst hx
  cases h with
  | some h => exact h

/-- What is related by equality is equal, if there is anything. -/
theorem eq_of_optionRel {R : α → α → Prop} (h : ∀ a b, R a b → b = a) {x y : Option α}
    (hxy : Option.Rel R x y) : y = x := by
  cases hxy with
  | none => rfl
  | some hab => rw [h _ _ hab]

/-! ### Single steps -/

namespace Relates

variable {good : S.World → α → β → Prop} {next : S.World → γ → δ → Prop}

/-- An answer that is there already is related to one that corresponds. -/
theorem pure (hS : S.Worlds) {a : α} {b : β} (h : good w a b) :
    S.Relates w good (Pure.pure a) (Pure.pure b) :=
  fun _ _ hs => .inr ⟨w, hS.refl w, hs, .ok h⟩

/-- Errors are related if they quote code that corresponds. -/
theorem fail (hS : S.Worlds) {e e' : EvalError} (h : EvalError.Alike S.quote e e') :
    S.Relates w good (Eval.fail e) (Eval.fail e') :=
  fun _ _ hs => .inr ⟨w, hS.refl w, hs, .error h⟩

/-- What is read from stores that correspond must be good in the same world. -/
theorem read (hS : S.Worlds) {f : Store → α} {g : Store → β}
    (h : ∀ s s', S.Corresponds w s s' → good w (f s) (g s')) :
    S.Relates w good (Eval.read f) (Eval.read g) :=
  fun s s' hs => .inr ⟨w, hS.refl w, hs, .ok (h s s' hs)⟩

/-- A change must keep the stores in correspondence, and leaves the world as it is. -/
theorem update (hS : S.Worlds) {f g : Store → Store}
    (h : ∀ s s', S.Corresponds w s s' → S.Corresponds w (f s) (g s')) :
    S.Relates w (fun _ _ _ => True) (Eval.update f) (Eval.update g) :=
  fun s s' hs => .inr ⟨w, hS.refl w, h s s' hs, .ok trivial⟩

/-- Whoever makes something chooses the world in which it is known. -/
theorem make {f : Store → α × Store} {g : Store → β × Store}
    (h : ∀ s s', S.Corresponds w s s' → ∃ w', S.le w w' ∧ S.Corresponds w' (f s).2 (g s').2 ∧
      good w' (f s).1 (g s').1) :
    S.Relates w good (Eval.make f) (Eval.make g) := by
  intro s s' hs
  obtain ⟨w', hle, hstore, hgood⟩ := h s s' hs
  exact .inr ⟨w', hle, hstore, .ok hgood⟩

theorem ofExcept (hS : S.Worlds) {x : Except EvalError α} {y : Except EvalError β}
    (h : SameAnswer (good w) x y) : S.Relates w good (Eval.ofExcept x) (Eval.ofExcept y) := by
  cases h with
  | ok h => exact pure hS h
  | error e => exact fail hS (.same e)

/-! ### Sequences -/

theorem bind (hS : S.Worlds) {x : Eval α} {y : Eval β} {f : α → Eval γ} {g : β → Eval δ}
    (hx : S.Relates w good x y)
    (hf : ∀ w' a b, S.le w w' → good w' a b → S.Relates w' next (f a) (g b)) :
    S.Relates w next (x >>= f) (y >>= g) := by
  intro s s' hs
  rw [Eval.bind_apply, Eval.bind_apply]
  rcases hxs : x s with ⟨r, t⟩
  rcases hys : y s' with ⟨r', t'⟩
  have hstep := hx s s' hs
  rw [hxs, hys] at hstep
  rcases hstep with (⟨e, he, hfail⟩ | ⟨hgive, hout⟩ | ⟨hgive, hout⟩) | ⟨w', hle, hstore, hend⟩
  -- where a run is lost in the first part, it is lost
  · obtain rfl : r = .error e := he
    exact .inl (.inl ⟨e, rfl, hfail⟩)
  · obtain rfl : r = .outOfFuel := hout
    exact .inl (.inr (.inl ⟨hgive, rfl⟩))
  · obtain rfl : r' = .outOfFuel := hout
    exact .inl (.inr (.inr ⟨hgive, rfl⟩))
  -- otherwise both go on in the later world
  · cases hend with
    | ok h =>
      rcases hf w' _ _ hle h t t' hstore with hlost | ⟨w'', hle', hafter⟩
      · exact .inl hlost
      · exact .inr ⟨w'', hS.trans hle hle', hafter⟩
    | error h => exact .inr ⟨w', hle, hstore, .error h⟩
    | outOfFuel => exact .inr ⟨w', hle, hstore, .outOfFuel⟩

/-- A weaker relation of the results. -/
theorem mono {weaker : S.World → α → β → Prop} {x : Eval α} {y : Eval β}
    (hx : S.Relates w good x y) (h : ∀ w' a b, S.le w w' → good w' a b → weaker w' a b) :
    S.Relates w weaker x y := by
  intro s s' hs
  rcases hx s s' hs with hlost | ⟨w', hle, hstore, hend⟩
  · exact .inl hlost
  · refine .inr ⟨w', hle, hstore, ?_⟩
    generalize (x s).1 = r at hend ⊢
    generalize (y s').1 = r' at hend ⊢
    cases hend with
    | ok hgood => exact .ok (h w' _ _ hle hgood)
    | error h => exact .error h
    | outOfFuel => exact .outOfFuel

/-- A list of computations goes on from world to world, and the first answers stay good. -/
theorem mapM (hS : S.Worlds) (hgood : S.Lasts good) {R : S.World → γ → δ → Prop} (hR : S.Lasts R)
    {f : γ → Eval α} {g : δ → Eval β} {cs : List γ} {ds : List δ}
    (h : ∀ w' c d, S.le w w' → R w' c d → S.Relates w' good (f c) (g d))
    (hitems : List.Forall₂ (R w) cs ds) :
    S.Relates w (fun w' => List.Forall₂ (good w')) (cs.mapM f) (ds.mapM g) := by
  have key : ∀ cs ds, List.Forall₂ (R w) cs ds → ∀ u, S.le w u →
      S.Relates u (fun w' => List.Forall₂ (good w')) (cs.mapM f) (ds.mapM g) := by
    intro cs ds hitems
    induction hitems with
    | nil => exact fun u _ => pure hS .nil
    | cons hitem _ ih =>
      intro u hle
      rw [List.mapM_cons, List.mapM_cons]
      refine bind hS (h u _ _ hle (hR hle hitem)) fun u₁ a b hle₁ ha => ?_
      refine bind hS (ih u₁ (hS.trans hle hle₁)) fun u₂ as bs hle₂ has => ?_
      exact pure hS (.cons (hgood hle₂ ha) has)
  exact key cs ds hitems w (hS.refl w)

/-- What is carried from item to item goes on from world to world. -/
theorem foldlM (hS : S.Worlds) {R : S.World → γ → δ → Prop} (hR : S.Lasts R)
    {f : α → γ → Eval α} {g : β → δ → Eval β} {cs : List γ} {ds : List δ}
    (h : ∀ w' a b c d, S.le w w' → good w' a b → R w' c d →
      S.Relates w' good (f a c) (g b d))
    (hitems : List.Forall₂ (R w) cs ds) {a : α} {b : β} (ha : good w a b) :
    S.Relates w good (cs.foldlM f a) (ds.foldlM g b) := by
  have key : ∀ cs ds, List.Forall₂ (R w) cs ds → ∀ u a b, S.le w u → good u a b →
      S.Relates u good (cs.foldlM f a) (ds.foldlM g b) := by
    intro cs ds hitems
    induction hitems with
    | nil => exact fun u a b _ ha => pure hS ha
    | cons hitem _ ih =>
      intro u a b hle ha
      rw [List.foldlM_cons, List.foldlM_cons]
      refine bind hS (h u _ _ _ _ hle ha (hR hle hitem)) fun u₁ a b hle₁ ha => ?_
      exact ih u₁ a b (hS.trans hle hle₁) ha
  exact key cs ds hitems w a b (hS.refl w) ha

/-- What is done at the end is done however the computations end. -/
theorem ensuring {x : Eval α} {y : Eval β} {tidy tidy' : Store → Store}
    (hx : S.Relates w good x y) (htidy : ∀ w' s s', S.le w w' → S.Corresponds w' s s' →
      S.Corresponds w' (tidy s) (tidy' s')) :
    S.Relates w good (x.ensuring tidy) (y.ensuring tidy') := by
  intro s s' hs
  rcases hx s s' hs with hlost | ⟨w', hle, hstore, hend⟩
  · exact .inl hlost
  · exact .inr ⟨w', hle, htidy w' _ _ hle hstore, hend⟩

end Relates

/-! ### Writing to frames -/

namespace Corresponds

variable {s s' : Store} {frame : FrameId} {name : String} {b b' : Binding}

/-- A slot may be written in both stores with what corresponds there. -/
theorem bind (h : S.Corresponds w s s') (hslot : S.slot w frame name b b') :
    S.Corresponds w (s.bind frame name b) (s'.bind frame name b') where
  sized := by
    rw [Store.sizes_bind]
    exact h.sized
  frames := by rw [Store.size_frames_bind, Store.size_frames_bind, h.frames]
  bindings other key := by
    rw [Store.binding?_bind, Store.binding?_bind, h.frames]
    split
    · next hsame =>
      -- the slot that is written; the other ones are read as before
      obtain ⟨rfl, rfl, -⟩ := hsame
      exact .some hslot
    · exact h.bindings other key
  kept other key hkept := by
    rw [Store.binding?_bind]
    split
    · rfl
    · exact h.kept other key hkept
  thunks := h.thunks
  thunkSizes := h.thunkSizes
  inlines := h.inlines
  inlineSizes := h.inlineSizes
  lone := h.lone
  functions := h.functions
  depth := h.depth
  printed := h.printed

/-- A binding may be removed from both stores, unless it has to be kept. -/
theorem unbind (h : S.Corresponds w s s') (hkept : ¬ S.kept frame name) :
    S.Corresponds w (s.unbind frame name) (s'.unbind frame name) where
  sized := by
    rw [Store.sizes_unbind]
    exact h.sized
  frames := by rw [Store.size_frames_unbind, Store.size_frames_unbind, h.frames]
  bindings other key := by
    rw [Store.binding?_unbind, Store.binding?_unbind]
    split
    · exact .none
    · exact h.bindings other key
  kept other key hother := by
    rw [Store.binding?_unbind, if_neg]
    · exact h.kept other key hother
    -- a binding that only one of the stores must keep is never the one that is removed
    · rintro ⟨rfl, rfl⟩
      exact hkept hother
  thunks := h.thunks
  thunkSizes := h.thunkSizes
  inlines := h.inlines
  inlineSizes := h.inlineSizes
  lone := h.lone
  functions := h.functions
  depth := h.depth
  printed := h.printed

/-- An assignment to an outer variable goes to the same frame in both runs. -/
theorem assignedFrame_eq (h : S.Corresponds w s s') (env : Env) (name : String) :
    s'.assignedFrame env name = s.assignedFrame env name := by
  have hbound : ∀ frame, (s'.binding? frame name).isSome = (s.binding? frame name).isSome := by
    intro frame
    have hrel := h.bindings frame name
    generalize s.binding? frame name = x at hrel ⊢
    generalize s'.binding? frame name = y at hrel ⊢
    cases hrel <;> rfl
  unfold Store.assignedFrame
  simp only [hbound]

/-- An outer assignment writes the same frame in both stores, since frames have the same identities.
-/
theorem assignOuter (h : S.Corresponds w s s') {env : Env} {v v' : Value}
    (hslot : ∀ frame, (frame ∈ env.outer.dropLast ∨
      env.outer.dropLast = [] ∧ frame = env.own) → S.slot w frame name (.value v) (.value v')) :
    S.Corresponds w (s.assignOuter env name v) (s'.assignOuter env name v') := by
  unfold Store.assignOuter
  rw [h.assignedFrame_eq]
  exact h.bind (hslot _ (s.assignedFrame_mem env name))

/-! ### Making frames, deferred values and spliced values -/

/-- What is there corresponds in a later world, unless other deferred values come to stand for each
other. -/
theorem bindings_of_le (hS : S.Worlds) (h : S.Corresponds w s s') {w' : S.World}
    (hle : S.le w w') (frame : FrameId) (name : String) :
    Option.Rel (S.slot w' frame name) (s.binding? frame name) (s'.binding? frame name) :=
  optionRel_mono (fun _ _ => hS.slot frame name hle) (h.bindings frame name)

/-- References that stand for each other after something was made lead to spliced values that
correspond, or to none in both stores. -/
theorem inlines_of_resize (hS : S.Sound) (h : S.Corresponds w s s') {z : Sizes}
    (hz : s.sizes.Le z) {ref ref' : InlineRef} (href : S.ref (S.resize w z) ref ref') :
    Option.Rel (S.value (S.resize w z)) (s.inline? ref) (s'.inline? ref') := by
  rcases Nat.lt_or_ge ref.index s.inlines.size with hlt | hge
  · exact optionRel_mono (fun _ _ => hS.value (hS.le_resize h.sized hz))
      (h.inlines ref ref' (hS.ref_of_resize h.sized hz href hlt))
  · have hge' : s'.inlines.size ≤ ref'.index := Nat.not_lt.1 fun hlt' =>
      Nat.not_lt.2 hge ((hS.ref_lt_iff h.inlineSizes href).2 hlt')
    rw [Store.inline?, Store.inline?, Array.getElem?_eq_none hge, Array.getElem?_eq_none hge']
    exact .none

/-- Deferred values that stand for each other after something was made are equally far evaluated, or
missing in both stores. -/
theorem thunks_of_resize (hS : S.Sound) (h : S.Corresponds w s s') {z : Sizes}
    (hz : s.sizes.Le z) {id id' : ThunkId} (hid : S.thunk (S.resize w z) id id') :
    Option.Rel (S.State (S.resize w z)) (s.thunk? id) (s'.thunk? id') := by
  rcases Nat.lt_or_ge id.index s.thunks.size with hlt | hge
  · exact optionRel_mono (fun _ _ => hS.state (hS.le_resize h.sized hz))
      (h.thunks id id' (hS.thunk_of_resize h.sized hz hid hlt))
  · have hge' : s'.thunks.size ≤ id'.index := Nat.not_lt.1 fun hlt' =>
      Nat.not_lt.2 hge ((hS.thunk_lt_iff h.thunkSizes hid).2 hlt')
    rw [Store.thunk?, Store.thunk?, Array.getElem?_eq_none hge, Array.getElem?_eq_none hge']
    exact .none

/-- A frame is made, in a world with one more frame. -/
theorem addFrame (hS : S.Sound) (h : S.Corresponds w s s') {bindings bindings' : Fields Binding}
    (hnew : ∀ name, Option.Rel (S.Reads (S.resize w s.sizes.addFrame)) (bindings.get? name)
      (bindings'.get? name))
    (hnames : ∀ name ∈ bindings.names, S.name name) :
    S.Corresponds (S.resize w s.sizes.addFrame) (s.addFrame bindings) (s'.addFrame bindings') where
  sized := by
    rw [Store.sizes_addFrame]
    exact hS.sized_resize h.sized s.sizes.le_addFrame
  frames := by rw [Store.addFrame, Store.addFrame, Array.size_push, Array.size_push, h.frames]
  bindings frame key := by
    have hle := hS.le_resize h.sized s.sizes.le_addFrame
    have hnext : s'.nextFrame = s.nextFrame := congrArg FrameId.mk h.frames
    rw [Store.binding?_addFrame, Store.binding?_addFrame, hnext]
    split
    · next hframe =>
      subst hframe
      have hkey := hnew key
      rcases hb : bindings.get? key with _ | b
      · rw [hb] at hkey
        generalize bindings'.get? key = y at hkey ⊢
        cases hkey
        exact .none
      · have hname : key ∈ bindings.names := List.mem_map_of_mem (Fields.mem_of_get? hb)
        rw [hb] at hkey
        exact optionRel_mono (fun _ _ hreads =>
          hS.slotNew h.sized hle (hnames key hname) hreads) hkey
    · exact h.bindings_of_le hS.toWorlds hle frame key
  kept frame key hkept := by
    have hold := h.kept frame key hkept
    rw [Store.binding?_addFrame]
    split
    -- a frame that has not been made binds nothing
    · next hframe =>
      subst hframe
      simp [Store.binding?, Store.bindings, Store.nextFrame, Fields.get?] at hold
    · exact hold
  thunks id id' hid := h.thunks_of_resize hS s.sizes.le_addFrame hid
  thunkSizes := h.thunkSizes
  inlines ref ref' href := h.inlines_of_resize hS s.sizes.le_addFrame href
  inlineSizes := h.inlineSizes
  lone := h.lone
  functions := h.functions
  depth := h.depth
  printed := h.printed

/-- A deferred value is made, in a world with one more deferred value. -/
theorem addThunk (hS : S.Sound) (h : S.Corresponds w s s') {env : Env} {e e' : Expr}
    (hstate : S.State w (.pending e env) (.pending e' env)) :
    S.Corresponds (S.resize w s.sizes.addThunk) (s.addThunk e env) (s'.addThunk e' env) ∧
      S.thunk (S.resize w s.sizes.addThunk) s.nextThunk s'.nextThunk := by
  have hle := hS.le_resize h.sized s.sizes.le_addThunk
  have hnext : S.thunk (S.resize w s.sizes.addThunk) s.nextThunk s'.nextThunk :=
    hS.thunk_next h.sized h.thunkSizes
  refine ⟨?_, hnext⟩
  exact {
    sized := by
      rw [Store.sizes_addThunk]
      exact hS.sized_resize h.sized s.sizes.le_addThunk
    frames := h.frames
    bindings := h.bindings_of_le hS.toWorlds hle
    kept := h.kept
    thunks := fun id id' hid => by
      rw [Store.thunk?_addThunk, Store.thunk?_addThunk]
      -- the new identities correspond to each other and to nothing else, so both lookups find the
      -- new state or both the old one
      have hiff := hS.thunk_unique hid hnext
      by_cases hnew : id = s.nextThunk
      · rw [if_pos hnew, if_pos (hiff.1 hnew)]
        exact .some (hS.state hle hstate)
      · rw [if_neg hnew, if_neg fun hnew' => hnew (hiff.2 hnew')]
        exact h.thunks_of_resize hS s.sizes.le_addThunk hid
    thunkSizes := by
      rw [Store.addThunk, Store.addThunk, Array.size_push, Array.size_push]
      exact hS.thunks_succ h.thunkSizes
    inlines := fun ref ref' href => h.inlines_of_resize hS s.sizes.le_addThunk href
    inlineSizes := h.inlineSizes
    lone := hS.lone_push h.thunkSizes hstate h.lone
    functions := h.functions
    depth := h.depth
    printed := h.printed }

/-- Expressions are deferred in a frame that was made in an earlier world. -/
theorem deferAll (hS : S.Sound) {env : Env} {u : S.World} {z : Sizes} (hsized : S.sized u z)
    {params : List String} (hparams : ∀ name ∈ params, S.name name) {args args' : List Expr}
    (hargs : List.Forall₂ (S.code w env) args args') (henv : S.env w env) (hle : S.le u w)
    (h : S.Corresponds w s s') :
    ∃ w', S.le w w' ∧ S.Corresponds w' (Evaluator.deferArguments ⟨z.frames⟩ env params args s)
      (Evaluator.deferArguments ⟨z.frames⟩ env params args' s') := by
  induction params generalizing args args' w s s' with
  | nil => exact ⟨w, hS.refl w, h⟩
  | cons name params ih =>
    cases hargs with
    | nil => exact ⟨w, hS.refl w, h⟩
    | @cons e e' args args' he hargs =>
      obtain ⟨hadded, hnext⟩ := h.addThunk hS (.pending henv he)
      have hgrow := hS.le_resize h.sized s.sizes.le_addThunk
      have hle' := hS.trans hle hgrow
      have hbound := hadded.bind
        (hS.slotNew hsized hle' (hparams name List.mem_cons_self) (.deferred hnext))
      obtain ⟨w', hlast, hall⟩ := ih (fun name hname => hparams name (List.mem_cons_of_mem _ hname))
        (hS.codes env hgrow hargs) (hS.env hgrow henv) hle' hbound
      exact ⟨w', hS.trans hgrow hlast, hall⟩

/-- A frame is made in which expressions are deferred. -/
theorem deferArguments (hS : S.Sound) (h : S.Corresponds w s s') {env : Env} (henv : S.env w env)
    {params : List String} (hparams : ∀ name ∈ params, S.name name) {args args' : List Expr}
    (hargs : List.Forall₂ (S.code w env) args args') :
    ∃ w', S.le (S.resize w s.sizes.addFrame) w' ∧
      S.Corresponds w' (Evaluator.deferArguments s.nextFrame env params args (s.addFrame []))
        (Evaluator.deferArguments s'.nextFrame env params args' (s'.addFrame [])) := by
  have hle := hS.le_resize h.sized s.sizes.le_addFrame
  have hmade : S.Corresponds _ (s.addFrame []) (s'.addFrame []) :=
    h.addFrame hS (fun _ => .none) (by simp [Fields.names])
  have hnext : s'.nextFrame = s.nextFrame := congrArg FrameId.mk h.frames
  rw [hnext]
  exact deferAll hS h.sized hparams (hS.codes env hle hargs) (hS.env hle henv) hle hmade

/-- A value is spliced, in a world with one more spliced value. -/
theorem addInline (hS : S.Sound) (h : S.Corresponds w s s') {v v' : Value} (hv : S.value w v v') :
    S.Corresponds (S.resize w s.sizes.addInline) (s.addInline v) (s'.addInline v') ∧
      S.ref (S.resize w s.sizes.addInline) s.nextInline s'.nextInline := by
  have hle := hS.le_resize h.sized s.sizes.le_addInline
  refine ⟨?_, hS.ref_next h.sized h.inlineSizes⟩
  exact {
    sized := by
      rw [Store.sizes_addInline]
      exact hS.sized_resize h.sized s.sizes.le_addInline
    frames := h.frames
    bindings := h.bindings_of_le hS.toWorlds hle
    kept := h.kept
    thunks := fun id id' hid => h.thunks_of_resize hS s.sizes.le_addInline hid
    thunkSizes := h.thunkSizes
    inlines := fun ref ref' href => by
      -- the two new references correspond to nothing else
      have hiff : ref = s.nextInline ↔ ref' = s'.nextInline :=
        hS.ref_eq_next_iff h.inlineSizes href
      rw [Store.inline?_addInline, Store.inline?_addInline]
      by_cases hnew : ref = s.nextInline
      · rw [if_pos hnew, if_pos (hiff.1 hnew)]
        exact .some (hS.value hle hv)
      · rw [if_neg hnew, if_neg fun hnew' => hnew (hiff.2 hnew')]
        exact h.inlines_of_resize hS s.sizes.le_addInline href
    inlineSizes := by
      rw [Store.addInline, Store.addInline, Array.size_push, Array.size_push]
      exact hS.refs_succ h.inlineSizes
    lone := hS.lone_inline h.lone
    functions := h.functions
    depth := h.depth
    printed := h.printed }

/-- The next function gets the same identity in both runs. -/
theorem addFunction (h : S.Corresponds w s s') : S.Corresponds w s.addFunction s'.addFunction :=
  { h with functions := congrArg (· + 1) h.functions }

/-- Both runs print the same line. -/
theorem print (h : S.Corresponds w s s') (line : String) :
    S.Corresponds w (s.print line) (s'.print line) :=
  { h with printed := congrArg (fun text => text ++ line ++ "\n") h.printed }

/-! ### Evaluating deferred values -/

/-- Deferred values that correspond may be set to states that correspond. -/
theorem setThunk (hS : S.Sound) (h : S.Corresponds w s s') {id id' : ThunkId}
    (hid : S.thunk w id id') {t t' : Thunk} (ht : S.State w t t') :
    S.Corresponds w (s.setThunk id t) (s'.setThunk id' t') where
  sized := by
    rw [Store.sizes_setThunk]
    exact h.sized
  frames := h.frames
  bindings := h.bindings
  kept := h.kept
  thunks other other' hother := by
    have hiff := hS.thunk_unique hother hid
    rw [Store.thunk?_setThunk, Store.thunk?_setThunk]
    by_cases hsame : other = id
    · rw [if_pos hsame, if_pos (hiff.1 hsame)]
      have hold := h.thunks id id' hid
      -- setting makes nothing: either both exist, or neither does
      generalize s.thunk? id = x at hold ⊢
      generalize s'.thunk? id' = y at hold ⊢
      cases hold with
      | none => exact .none
      | some _ => exact .some ht
    · rw [if_neg hsame, if_neg fun hsame' => hsame (hiff.2 hsame')]
      exact h.thunks other other' hother
  thunkSizes := by
    rw [Store.setThunk, Store.setThunk, Array.size_setIfInBounds, Array.size_setIfInBounds]
    exact h.thunkSizes
  inlines := h.inlines
  inlineSizes := h.inlineSizes
  lone := hS.lone_set hid ht h.lone
  functions := h.functions
  depth := h.depth
  printed := h.printed

/-- A demand is entered on both sides, or too deep on both. -/
theorem enter (hS : S.Sound) (h : S.Corresponds w s s') {id id' : ThunkId}
    (hid : S.thunk w id id') : S.Corresponds w (s.enter id) (s'.enter id') := by
  have hdeeper :
      S.Corresponds w { s with depth := s.depth + 1 } { s' with depth := s'.depth + 1 } :=
    { h with depth := congrArg (· + 1) h.depth }
  exact hdeeper.setThunk hS hid .evaluating

/-- It is left with states that correspond. -/
theorem leave (hS : S.Sound) (h : S.Corresponds w s s') {id id' : ThunkId}
    (hid : S.thunk w id id') {t t' : Thunk} (ht : S.State w t t') :
    S.Corresponds w (s.leave id t) (s'.leave id' t') := by
  have hback : S.Corresponds w { s with depth := s.depth - 1 } { s' with depth := s'.depth - 1 } :=
    { h with depth := congrArg (· - 1) h.depth }
  exact hback.setThunk hS hid ht

end Corresponds

end Simulation

end PipeLang
