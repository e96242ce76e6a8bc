import PipeLang.Proofs.AlikeCode
import PipeLang.Proofs.Lockstep
import PipeLang.Proofs.StoredCode

/-!
# The same values, delivered in two ways

A function can get its arguments as inline nodes or as values.  A closure then has parameters that
are deferred in the one run and bound to the values in the other, and a special builtin gets inline
nodes that were there before in the one run and new ones in the other.  The two runs go on to number
their deferred values and their spliced values differently.

`Delivery.simulation` relates such runs: a parameter that is deferred to an inline node, or to the
value that it has been forced to, corresponds to that value.  Everything else is in both stores
under numbers that are shifted, once they are beyond those of the store at the beginning.  Reading
such a parameter takes one nesting level more than reading the value, and it fails where no more
deferred values may be evaluated within one another; so the runs are compared for all that one of
them does until it gives up, or the first one fails for that.

A store is closed if all that it refers to is there (`Store.Closed`).  The numbers beyond those of
the store at the beginning are then those of what is made later, and only then are the shifts what
they are meant to be.
-/

namespace PipeLang

/-! ### Closed code -/

/-- The spliced values that the expression refers to are among the first `n`. -/
def Expr.Closed (n : Nat) (e : Expr) : Prop :=
  e.Alike ⟨Eq, fun ref ref' => ref = ref' ∧ ref.index < n⟩ e

/-- So are those that the functions in the value refer to. -/
def Value.Closed (n : Nat) (v : Value) : Prop := v.Runs fun c => c.body.Closed n

/-- The deferred values and the spliced values that the store refers to are there. -/
structure Store.Closed (s : Store) : Prop where
  deferred : ∀ {frame name id}, s.binding? frame name = some (.deferred id) →
    id.index < s.thunks.size
  code : s.Runs (fun _ e => e.Closed s.inlines.size) fun c => c.body.Closed s.inlines.size

/-! ### Deliveries -/

/-- The values that two runs get in different ways. -/
structure Delivery where
  /-- How much was in the store before. -/
  base : Sizes
  /-- The values that are arguments, deferred to inline nodes in the first run. -/
  arguments : List (InlineRef × Value) := []
  /-- The values in inline nodes, new ones in the second run. -/
  splices : List (InlineRef × Value) := []
  /-- Whether the first run may give up before the second one. -/
  first : Prop := False
  /-- Whether the second run may give up before the first one. -/
  second : Prop := False

namespace Delivery

variable (D : Delivery)

/-- The deferred values that stand for each other: all but the arguments. -/
def Thunks (w : Sizes) (id id' : ThunkId) : Prop :=
  id = id' ∧ id.index < D.base.thunks ∨
    id.index = id'.index + D.arguments.length ∧ D.base.thunks ≤ id'.index ∧ id.index < w.thunks

/-- The spliced values that stand for each other. -/
def Refs (w : Sizes) (ref ref' : InlineRef) : Prop :=
  ref = ref' ∧ ref.index < D.base.inlines ∨
    (∃ i v, D.splices[i]? = some (ref, v) ∧ ref.index < D.base.inlines ∧
      ref'.index = D.base.inlines + i) ∨
    ref'.index = ref.index + D.splices.length ∧ D.base.inlines ≤ ref.index ∧
      ref.index < w.inlines

/-- Expressions that are equal but for spans and for the numbers of spliced values. -/
abbrev Code (w : Sizes) : Expr → Expr → Prop := Expr.Alike ⟨Eq, D.Refs w⟩

/-- Closures with such bodies. -/
structure Called (w : Sizes) (c c' : Closure) : Prop where
  env : c'.env = c.env
  body : D.Code w c.body c'.body

/-- Values that are equal but for such closures. -/
def likeness (w : Sizes) : Likeness where
  closure := D.Called w
  special s := True ∨ ∀ op, s ≠ .pipe op

/-- What a name is bound to in a frame: the same in both runs, or, in a frame that has been made
since, an argument. -/
inductive Slot (w : Sizes) (frame : FrameId) (name : String) : Binding → Binding → Prop
  | same {b b' : Binding} (h : Binding.Alike (D.likeness w) (D.Thunks w) b b')
      (hold : frame.index < D.base.frames → ∀ id, b = .deferred id → id.index < D.base.thunks) :
      Slot w frame name b b'
  | argument {i : Nat} {ref : InlineRef} {v v' : Value} (hframe : D.base.frames ≤ frame.index)
      (h : D.arguments[i]? = some (ref, v)) (hv : v.Like (D.likeness w) v') :
      Slot w frame name (.deferred ⟨D.base.thunks + i⟩) (.value v')

/-- The arguments wait as inline nodes, or their values are there. -/
def Waits (thunks : Array Thunk) (values : Array Value) : Prop :=
  ∀ i ref v, D.arguments[i]? = some (ref, v) →
    (∃ label at_ env, thunks[D.base.thunks + i]? = some (.pending (.inline label ref at_) env) ∧
      values[ref.index]? = some v) ∨ thunks[D.base.thunks + i]? = some (.forced v)

/-- The two runs side by side. -/
def simulation : Simulation where
  World := Sizes
  le := Sizes.Le
  sized w z := w = z ∧ D.base.Le z
  resize _ z := z
  env _ _ := True
  code w _ := D.Code w
  closure := D.Called
  slot := D.Slot
  thunk := D.Thunks
  thunks m n := m = n + D.arguments.length ∧ D.base.thunks ≤ n
  ref := D.Refs
  refs m n := n = m + D.splices.length ∧ D.base.inlines ≤ m
  lone thunks _ values := D.Waits thunks values
  mayFail e := D.arguments ≠ [] ∧ ∃ limit, e = .tooDeep limit
  firstMayGiveUp := D.first
  secondMayGiveUp := D.second

variable {D} {w : Sizes} {env : Env} {e e' : Expr}

/-! ### The simulation is sound -/

/-- Spliced values that were there before still stand for each other in a later world. -/
theorem Refs.of_le {w w' : Sizes} (hle : w.Le w') {ref ref' : InlineRef} (h : D.Refs w ref ref') :
    D.Refs w' ref ref' := by
  rcases h with h | h | ⟨h, hbase, hlt⟩
  · exact .inl h
  · exact .inr (.inl h)
  · exact .inr (.inr ⟨h, hbase, Nat.lt_of_lt_of_le hlt hle.inlines⟩)

/-- Deferred values that stand for each other do so in a later world. -/
theorem Thunks.of_le {w w' : Sizes} (hle : w.Le w') {id id' : ThunkId} (h : D.Thunks w id id') :
    D.Thunks w' id id' := by
  rcases h with h | ⟨h, hbase, hlt⟩
  · exact .inl h
  · exact .inr ⟨h, hbase, Nat.lt_of_lt_of_le hlt hle.thunks⟩

/-- Code only depends on the world through the spliced values in it. -/
theorem code_of_le {w w' : Sizes} (hle : w.Le w') (h : D.Code w e e') : D.Code w' e e' :=
  Expr.Alike.mono_ref (fun _ _ href => Refs.of_le hle href) h

/-- Closures that correspond do so in a later world, in the same environment. -/
theorem called_of_le {w w' : Sizes} (hle : w.Le w') {c c' : Closure} (h : D.Called w c c') :
    D.Called w' c c' := ⟨h.env, code_of_le hle h.body⟩

theorem like_of_le {w w' : Sizes} (hle : w.Le w') {v v' : Value} (h : v.Like (D.likeness w) v') :
    v.Like (D.likeness w') v' := by
  have hclosure : ∀ c c', (D.likeness w).closure c c' → (D.likeness w').closure c c' :=
    fun _ _ hc => called_of_le hle hc
  exact Value.Like.mono hclosure (fun _ h => h) (fun _ h => h) h

/-- Bindings that correspond do so in a later world. -/
theorem slot_of_le {w w' : Sizes} (hle : w.Le w') {frame : FrameId} {name : String}
    {b b' : Binding} (h : D.Slot w frame name b b') : D.Slot w' frame name b b' := by
  cases h with
  | same h hold =>
    refine .same ?_ hold
    cases h with
    | value hv => exact .value (like_of_le hle hv)
    | deferred hid => exact .deferred (hid.of_le hle)
  | argument hframe h hv => exact .argument hframe h (like_of_le hle hv)

/-- A world is how much the first store holds, counted from where the two runs part. -/
theorem worlds_simulation (D : Delivery) : D.simulation.Worlds where
  refl := Sizes.Le.refl
  trans h h' := Sizes.Le.trans h h'
  env _ h := h
  code _ _ _ hle _ _ h := code_of_le hle h
  closure hle _ _ h := called_of_le hle h
  exceptional _ _ _ _ _ _ h := h
  target _ _ _ hle _ _ h := code_of_le hle h
  slot _ _ _ _ hle _ _ h := slot_of_le hle h
  thunk hle _ _ h := h.of_le hle
  ref hle _ _ h := h.of_le hle
  le_resize := by
    rintro w z z' ⟨rfl, -⟩ hz
    exact hz
  sized_resize := by
    rintro w z z' ⟨rfl, hbase⟩ hz
    exact ⟨rfl, hbase.trans hz⟩
  -- an identity stands for itself if it was there at the start, and else is shifted by what only
  -- one run has made
  thunk_of_resize := by
    rintro w z z' id id' ⟨rfl, -⟩ - (h | ⟨h, hbase, -⟩) hlt
    · exact .inl h
    · exact .inr ⟨h, hbase, hlt⟩
  ref_of_resize := by
    rintro w z z' ref ref' ⟨rfl, -⟩ - (h | h | ⟨h, hbase, -⟩) hlt
    · exact .inl h
    · exact .inr (.inl h)
    · exact .inr (.inr ⟨h, hbase, hlt⟩)

/-- The shift is the same for all identities, so that no two of them are confused. -/
theorem Thunks.eq_iff {id id' other other' : ThunkId} (h : D.Thunks w id id')
    (h' : D.Thunks w other other') : id = other ↔ id' = other' := by
  obtain ⟨i⟩ := id
  obtain ⟨i'⟩ := id'
  obtain ⟨j⟩ := other
  obtain ⟨j'⟩ := other'
  simp only [Thunks, ThunkId.mk.injEq] at h h' ⊢
  omega

/-- No deferred value stands for an argument. -/
theorem Thunks.ne_argument {id id' : ThunkId} (h : D.Thunks w id id') {i : Nat}
    (hi : i < D.arguments.length) : id.index ≠ D.base.thunks + i := by
  rcases h with ⟨-, hlt⟩ | ⟨h, hbase, -⟩ <;> omega

/-- An argument has a position in the list. -/
theorem lt_length_of_argument {i : Nat} {entry : InlineRef × Value}
    (h : D.arguments[i]? = some entry) : i < D.arguments.length :=
  (List.getElem?_eq_some_iff.1 h).1

/-- New identities lie behind those of the arguments in both runs. -/
theorem numbered_simulation (D : Delivery) : D.simulation.Numbered where
  thunk_unique h h' := h.eq_iff h'
  thunk_lt_iff := by
    rintro w m n id id' ⟨rfl, hn⟩ (⟨rfl, hlt⟩ | ⟨h, hbase, -⟩) <;> omega
  thunk_next := by
    rintro w z n ⟨rfl, -⟩ ⟨h, hn⟩
    exact .inr ⟨h, hn, Nat.lt_succ_self _⟩
  thunks_succ := by
    rintro m n ⟨rfl, hn⟩
    exact ⟨by omega, Nat.le_succ_of_le hn⟩
  ref_lt_iff := by
    rintro w m n ref ref' ⟨rfl, hm⟩ (⟨rfl, hlt⟩ | ⟨i, v, h, hlt, hnew⟩ | ⟨h, hbase, -⟩)
    · omega
    · have hi := (List.getElem?_eq_some_iff.1 h).1
      omega
    · omega
  ref_next := by
    rintro w z n ⟨rfl, -⟩ ⟨h, hm⟩
    exact .inr (.inr ⟨h, hm, Nat.lt_succ_self _⟩)
  refs_succ := by
    rintro m n ⟨rfl, hm⟩
    exact ⟨by omega, Nat.le_succ_of_le hm⟩
  -- an argument waits or is forced, and to make something else leaves it where it is
  lone_push {_ thunks _ values t _} _ _ h i ref v hi := by
    have hpush : ∀ {x}, thunks[D.base.thunks + i]? = some x →
        (thunks.push t)[D.base.thunks + i]? = some x := by
      intro x hx
      rw [Array.getElem?_push, if_neg, hx]
      exact fun heq => Nat.ne_of_lt (Array.getElem?_eq_some_iff.1 hx).1 heq
    rcases h i ref v hi with ⟨label, at_, env, hwait, hv⟩ | hforced
    · exact .inl ⟨label, at_, env, hpush hwait, hv⟩
    · exact .inr (hpush hforced)
  lone_set {w thunks _ values id id' t _} hid _ h i ref v hi := by
    -- no deferred value that stands for another one is an argument
    have hne := hid.ne_argument (lt_length_of_argument hi)
    rw [Array.getElem?_setIfInBounds_ne hne]
    exact h i ref v hi
  lone_inline {thunks _ values v} h i ref arg hi := by
    rcases h i ref arg hi with ⟨label, at_, env, hwait, hv⟩ | hforced
    · refine .inl ⟨label, at_, env, hwait, ?_⟩
      rw [Array.getElem?_push, if_neg, hv]
      exact fun heq => Nat.ne_of_lt (Array.getElem?_eq_some_iff.1 hv).1 heq
    · exact .inr hforced

/-- Expressions that correspond have the same form, and their parts correspond. -/
theorem forms (h : D.Code w e e') : D.simulation.Matches w env e e' := by
  cases h with
  | lit literal s s' => exact .lit literal s s'
  | sym h s s' =>
    obtain rfl := h
    exact .sym _ s s'
  | inline label h s s' => exact .inline _ _ _ _ s s'
  | paren h => exact .paren h trivial
  | block h s s' => exact .block h s s'
  | list h s s' => exact .list h s s'
  | record hnames h s s' =>
    exact .record (Fields.alike_iff.2 ⟨hnames, h⟩) (fun _ _ => trivial) s s'
  | field h name s s' => exact .field h name s s'
  | lambda params h s s' => exact .lambda params _ _ s s'
  | ifThen hcond hyes s s' => exact .ifThen hcond hyes s s'
  | ifElse hcond hyes hno s s' => exact .ifElse hcond hyes hno s s'
  | call hfunc hargs s s' => exact .call hfunc hargs s s'
  | @assign target value target' value' htarget hvalue scope s s' =>
    have hprint : D.simulation.quote target.print target'.print := htarget.print_eq
    cases htarget with
    | sym h at_ at' =>
      obtain rfl := h
      exact .assign _ hvalue scope at_ at' s s'
    | _ => exact .badAssign (by simp) (by simp) hprint _ _ scope s s'

/-- Code in which no symbol differs assigns to the same names. -/
theorem targetName_alike (h : D.Code w e e') :
    D.simulation.SameTarget e.targetName e'.targetName := by
  have hprint : D.simulation.quote e.print e'.print := h.print_eq
  cases h with
  | sym h s s' =>
    obtain rfl := h
    rw [Expr.targetName, Expr.targetName]
    split
    · exact .inr ⟨_, _, rfl, rfl, hprint⟩
    · exact .inl ⟨_, rfl, rfl⟩
  | _ => exact .inr ⟨_, _, rfl, rfl, hprint⟩

/-- A value may be bound anywhere. -/
theorem slot_value {frame : FrameId} {name : String} {v v' : Value}
    (hv : v.Like (D.likeness w) v') : D.Slot w frame name (.value v) (.value v') :=
  .same (.value hv) (by rintro _ _ ⟨⟩)

/-- What is evaluated within an expression corresponds as its parts do, since the environments are
the same. -/
theorem sound_simulation (D : Delivery) : D.simulation.Sound where
  toWorlds := worlds_simulation D
  toNumbered := numbered_simulation D
  forms _ h := forms h
  print h := h.print_eq
  operatorName _ _ := trivial
  kind h := h.elim
  isLazy _ h := h.elim
  targetName _ h := targetName_alike h
  targetOfFree _ h := h
  step h _ kind := h.step (Variation.fits_of_eq _) kind
  lambda _ h _ := by
    cases h with
    | lambda _ hbody => exact ⟨rfl, hbody⟩
  stepClosure _ h _ := ⟨rfl, h⟩
  closureEnv h := ⟨h.env, trivial⟩
  closureNames _ _ _ := trivial
  placeholderName := trivial
  body := by
    rintro w z c c' ⟨rfl, -⟩ h
    exact code_of_le w.le_addFrame h.body
  within _ _ := trivial
  codeWithin := by
    rintro w z env e e' ⟨rfl, -⟩ - h
    exact code_of_le w.le_addFrame h
  inline h := by
    cases h with
    | inline label href => exact ⟨rfl, href⟩
  nowhere := trivial
  spliced {w v v' ref ref'} hv href {env} _ {at_ at'} _ := by
    rw [hv.show_eq]
    exact .inline _ href _ _
  -- a new frame is none of the old ones, where only old deferred values may be bound
  slotNew := by
    rintro w u z name b b' ⟨rfl, hbase⟩ - - h
    exact .same h fun hlt => absurd hlt (Nat.not_lt.2 hbase.frames)
  slotAssign _ _ hv := slot_value hv
  slotOuter _ _ _ hv := slot_value hv
  slotTarget _ _ _ hv := slot_value hv

/-! ### Reading arguments -/

/-- The first run evaluates the inline nodes of arguments, unless it gives up. -/
def Delivers (D : Delivery) (ev : Evaluator) : Prop :=
  ∀ ref v, (ref, v) ∈ D.arguments → ∀ s : Store, s.inline? ref = some v → ∀ env label at_,
    ev.eval env (.inline label ref at_) s = (.ok v, s) ∨
      D.first ∧ ev.eval env (.inline label ref at_) s = (.outOfFuel, s)

/-- Every level gives the spliced value of an argument, the lowest one only if the first run may
give up. -/
theorem delivers_level (h : D.arguments = [] ∨ D.first) (n : Nat) : D.Delivers (.level n) := by
  intro ref v hmem s hv env label at_
  cases n with
  | zero =>
    refine .inr ⟨h.resolve_left fun hnil => ?_, rfl⟩
    rw [hnil] at hmem
    cases hmem
  | succ n => exact .inl (Evaluator.eval_inline n hv env label at_)

/-- A level that is not the lowest one reads a spliced value. -/
theorem delivers_level_succ (D : Delivery) (n : Nat) : D.Delivers (.level (n + 1)) :=
  fun _ _ _ _ hv env label at_ => .inl (Evaluator.eval_inline n hv env label at_)

/-- The first run keeps the value of an argument. -/
theorem corresponds_forced {s s' : Store} (hs : D.simulation.Corresponds w s s') {i : Nat}
    {ref : InlineRef} {v : Value} (hi : D.arguments[i]? = some (ref, v)) :
    D.simulation.Corresponds w
      ((s.enter ⟨D.base.thunks + i⟩).leave ⟨D.base.thunks + i⟩ (.forced v)) s' := by
  -- no other deferred value is touched
  have hthunk : ∀ id : ThunkId, id.index ≠ D.base.thunks + i →
      ((s.enter ⟨D.base.thunks + i⟩).leave ⟨D.base.thunks + i⟩ (.forced v)).thunk? id =
        s.thunk? id := by
    intro id hne
    have hne' : id ≠ ⟨D.base.thunks + i⟩ := fun h => hne (congrArg ThunkId.index h)
    rw [Store.thunk?_leave_of_ne hne', Store.thunk?_enter_of_ne hne']
  have hsize : ((s.enter ⟨D.base.thunks + i⟩).leave ⟨D.base.thunks + i⟩ (.forced v)).sizes =
      s.sizes := by
    simp [Store.sizes, Store.leave, Store.enter, Store.setThunk]
  have hthunks : ((s.enter ⟨D.base.thunks + i⟩).leave ⟨D.base.thunks + i⟩ (.forced v)).thunks.size =
      s.thunks.size := congrArg Sizes.thunks hsize
  exact {
    sized := by
      rw [hsize]
      exact hs.sized
    frames := hs.frames
    bindings := hs.bindings
    kept := hs.kept
    thunks := fun id id' hid => by
      rw [hthunk id (Thunks.ne_argument hid (lt_length_of_argument hi))]
      exact hs.thunks id id' hid
    thunkSizes := by
      rw [hthunks]
      exact hs.thunkSizes
    inlines := hs.inlines
    inlineSizes := hs.inlineSizes
    lone := fun j ref' v' hj => by
      -- the argument itself is forced now, the other ones are as they were
      by_cases hij : j = i
      · subst hij
        obtain ⟨rfl, rfl⟩ := Prod.mk.inj (Option.some.inj (hj.symm.trans hi))
        have hlt : D.base.thunks + j < s.thunks.size := by
          rcases hs.lone j _ _ hj with ⟨_, _, _, h, -⟩ | h
          · exact (Array.getElem?_eq_some_iff.1 h).1
          · exact (Array.getElem?_eq_some_iff.1 h).1
        have hentered : (s.enter ⟨D.base.thunks + j⟩).thunk? ⟨D.base.thunks + j⟩ =
            some .evaluating := Store.thunk?_setThunk_self hlt _
        exact .inr (Store.thunk?_leave_self hentered _)
      · have hold := hs.lone j ref' v' hj
        have hsame := hthunk ⟨D.base.thunks + j⟩ (by simpa using hij)
        simp only [Store.thunk?] at hsame
        rw [hsame]
        exact hold
    functions := hs.functions
    depth := (hs.depth.trans (Nat.add_sub_cancel s.depth 1).symm)
    printed := hs.printed }

/-- To demand an argument in the first run is to have its value in the second one. -/
theorem force_argument {ev : Evaluator} (hev : D.Delivers ev) {i : Nat} {ref : InlineRef}
    {v v' : Value} (hi : D.arguments[i]? = some (ref, v)) (hv : v.Like (D.likeness w) v') :
    D.simulation.Relates w D.simulation.value (ev.force ⟨D.base.thunks + i⟩) (pure v') := by
  intro s s' hs
  -- the argument waits for its first demand, or was forced before
  rcases hs.lone i ref v hi with ⟨label, at_, env, hwait, hinline⟩ | hforced
  · have hthunk : s.thunk? ⟨D.base.thunks + i⟩ = some (.pending (.inline label ref at_) env) :=
      hwait
    rcases Nat.lt_or_ge s.depth depthLimit with hdepth | hdepth
    · rw [ev.force_of_pending hthunk hdepth]
      have hinline' : (s.enter ⟨D.base.thunks + i⟩).inline? ref = some v := hinline
      have hmem := List.mem_of_getElem? hi
      rcases hev ref v hmem _ hinline' env label at_ with heval | ⟨hfirst, heval⟩
      · rw [heval]
        exact .inr ⟨w, (worlds_simulation D).refl w, corresponds_forced hs hi, .ok hv⟩
      · rw [heval]
        exact .inl (.inr (.inl ⟨hfirst, rfl⟩))
    · rw [ev.force_of_tooDeep hthunk hdepth]
      -- the demand of the first run may be too deep, on which the second one has nothing to say
      refine .inl (.inl ⟨_, rfl, ?_, _, rfl⟩)
      intro hnil
      rw [hnil] at hi
      cases hi
  · rw [ev.force_of_forced hforced]
    exact .inr ⟨w, (worlds_simulation D).refl w, hs, .ok hv⟩

/-- A parameter is read in both runs, whether it is bound to a value or to the demand for one. -/
theorem lookups {ev other : Evaluator} (hdeliver : D.Delivers ev)
    (hev : D.simulation.Agree ev other) : D.simulation.Lookups ev other := by
  intro w env name at_ at' _ _
  refine Simulation.Relates.lookup (worlds_simulation D) ?_
  intro s s' _ frame key b b' _ _ hslot
  cases hslot with
  | same h _ => exact hev.forceBinding (sound_simulation D) h
  | argument _ hi hv => exact force_argument hdeliver hi hv

/-! ### Levels -/

/-- Chains are run step by step as they are in any two runs that agree. -/
theorem chains {ev other : Evaluator} (hev : D.simulation.Agree ev other) :
    D.simulation.Chains ev other :=
  fun henv hes => hev.evalEager (sound_simulation D) (fun _ hv => slot_value hv) henv hes

/-- If the level below agrees, so does the one above. -/
theorem agree_step {ev other : Evaluator} (hdeliver : D.Delivers ev)
    (hev : D.simulation.Agree ev other) : D.simulation.Agree ev.step other.step :=
  hev.step (sound_simulation D) (lookups hdeliver hev) (fun _ h => h.elim) (chains hev)
    fun h => h.elim

/-- Where reading an argument takes one level more, the first run gives up before the second one. -/
theorem agree_level (h : D.arguments = [] ∨ D.first) (n : Nat) :
    D.simulation.Agree (.level n) (.level n) := by
  induction n with
  | zero => exact Simulation.agree_idle (worlds_simulation D)
  | succ n ih => exact agree_step (delivers_level h n) ih

/-- With one level more, the second run gives up before the first one. -/
theorem agree_level_succ (h : D.second) (n : Nat) :
    D.simulation.Agree (.level (n + 1)) (.level n) := by
  induction n with
  | zero =>
    have hlost : ∀ {w : Sizes} {x : Eval Value},
        D.simulation.Relates w D.simulation.value x Eval.giveUp :=
      fun _ _ _ => .inl (.inr (.inr ⟨h, rfl⟩))
    exact ⟨fun _ _ => hlost, fun h => h.elim, fun _ h => h.elim, fun _ _ _ => hlost⟩
  | succ n ih => exact agree_step (delivers_level_succ D n) ih

end Delivery

end PipeLang
