import PipeLang.Program
import PipeLang.Proofs.Delivery
import PipeLang.Proofs.Nesting
import PipeLang.Proofs.Parameters

/-!
# Two ways to apply a function

A call with inline nodes for arguments and the application to their values come to the same
(`application_paths_agree`).  For a builtin or a sequence the call is the application.  For a
closure and for a special builtin the two begin in stores that `Delivery.simulation` relates, and
the rest is that it is kept.

The store is assumed to be closed.  So is every store that a program comes to from a fresh
environment (`closed_globalEnv`, `Store.Closed.program`), which is the same simulation with nothing
to deliver.
-/

namespace PipeLang

/-! ### What is compared -/

/-- The errors are the same, except for the callee that they name. -/
inductive EvalError.SameButCallee : EvalError → EvalError → Prop
  | same (e : EvalError) : SameButCallee e e
  | notFunction (a b : String) : SameButCallee (.notFunction a) (.notFunction b)
  | arity (a b : String) (expected : Arity) (got : Nat) :
      SameButCallee (.arity a expected got) (.arity b expected got)

/-- The deferred values are equally far evaluated, and have the same data. -/
inductive Thunk.SameData : Thunk → Thunk → Prop
  | pending (e e' : Expr) (env : Env) : SameData (.pending e env) (.pending e' env)
  | evaluating : SameData .evaluating .evaluating
  | forced {v v' : Value} (h : v.SameData v') : SameData (.forced v) (.forced v')

/-- In these stores the bindings are to values with the same data, or to the same deferred value. -/
inductive Binding.SameData (t t' : Store) : Binding → Binding → Prop
  | value {v v' : Value} (h : v.SameData v') : SameData t t' (.value v) (.value v')
  | deferred (id : ThunkId) (h : Option.Rel Thunk.SameData (t.thunk? id) (t'.thunk? id)) :
      SameData t t' (.deferred id) (.deferred id)

/-- Two runs that began in a store have ended in the same way: with the same output, with values of
the same data or the same error but for the callee, and with the same names bound alike in the
frames of that store. -/
structure Store.SameEnd (s : Store) (x y : Outcome EvalError Value × Store) : Prop where
  printed : y.2.printed = x.2.printed
  outcome : Outcome.Alike EvalError.SameButCallee Value.SameData x.1 y.1
  frames : ∀ frame name, frame.index < s.frames.size →
    Option.Rel (Binding.SameData x.2 y.2) (x.2.binding? frame name) (y.2.binding? frame name)

namespace Store.SameEnd

/-- Runs with the same end give up together. -/
theorem outOfFuel_iff {s : Store} {x y : Outcome EvalError Value × Store} (h : s.SameEnd x y) :
    x.1 = .outOfFuel ↔ y.1 = .outOfFuel := by
  have houtcome := h.outcome
  generalize x.1 = r at houtcome
  generalize y.1 = r' at houtcome
  cases houtcome <;> simp

/-- In one store everything is bound alike. -/
theorem of_store {r r' : Outcome EvalError Value}
    (h : Outcome.Alike EvalError.SameButCallee Value.SameData r r') (s : Store) {t : Store} :
    s.SameEnd (r, t) (r', t) where
  printed := rfl
  outcome := h
  frames frame name _ := by
    have hthunk : ∀ id, Option.Rel Thunk.SameData (t.thunk? id) (t.thunk? id) := by
      refine fun id => Simulation.optionRel_self fun x _ => ?_
      cases x with
      | pending e env => exact .pending e e env
      | evaluating => exact .evaluating
      | forced v => exact .forced (.refl v)
    refine Simulation.optionRel_self fun b _ => ?_
    cases b with
    | value v => exact .value (.refl v)
    | deferred id => exact .deferred id (hthunk id)

/-- A run has the same end as itself. -/
theorem refl (x : Outcome EvalError Value × Store) (s : Store) : s.SameEnd x x := by
  obtain ⟨r, t⟩ := x
  refine of_store ?_ s
  cases r with
  | ok v => exact .ok (.refl v)
  | error e => exact .error (.same e)
  | outOfFuel => exact .outOfFuel

end Store.SameEnd

/-- The expression is an inline node for the value. -/
def Store.Splices (s : Store) (e : Expr) (v : Value) : Prop :=
  ∃ ref at_, e = .inline v.show ref at_ ∧ s.inline? ref = some v

/-- It is the one for the value that is kept under the reference. -/
def Store.SplicesAt (s : Store) (e : Expr) (entry : InlineRef × Value) : Prop :=
  ∃ at_, e = .inline entry.2.show entry.1 at_ ∧ s.inline? entry.1 = some entry.2

/-! ### The beginnings -/

namespace Delivery

variable {D : Delivery} {w : Sizes} {s : Store}

/-- What is closed stands for itself. -/
theorem code_self {e : Expr} (h : e.Closed D.base.inlines) : D.Code w e e :=
  h.mono_ref fun _ _ href => .inl href

/-- A value without new spliced values is like itself. -/
theorem like_self {v : Value} (h : v.Closed D.base.inlines) : v.Like (D.likeness w) v :=
  Value.Like.refl (fun _ => Or.inl trivial) (fun _ => trivial) fun c hc =>
    ⟨rfl, code_self (h c hc)⟩

/-- The store before, beside itself. -/
structure Beginning (D : Delivery) (s : Store) : Prop where
  closed : s.Closed
  base : D.base = s.sizes

namespace Beginning

theorem like (h : D.Beginning s) {v : Value} (hv : v.Closed s.inlines.size) :
    v.Like (D.likeness w) v := by
  refine like_self ?_
  rw [h.base]
  exact hv

/-- A deferred value that is there at the beginning stands for itself. -/
theorem thunk (h : D.Beginning s) {id : ThunkId} (hid : id.index < s.thunks.size) :
    D.Thunks w id id := by
  refine .inl ⟨rfl, ?_⟩
  rw [h.base]
  exact hid

/-- Every binding of the store corresponds to itself at the beginning. -/
theorem slot (h : D.Beginning s) (frame : FrameId) (name : String) :
    Option.Rel (D.Slot w frame name) (s.binding? frame name) (s.binding? frame name) := by
  refine Simulation.optionRel_self fun b hb => ?_
  cases b with
  | value v => exact slot_value (h.like (h.closed.code.bound hb))
  | deferred id =>
    refine .same (.deferred (h.thunk (h.closed.deferred hb))) ?_
    rintro - _ ⟨⟩
    rw [h.base]
    exact h.closed.deferred hb

/-- Every deferred value of the store corresponds to itself at the beginning. -/
theorem state (h : D.Beginning s) (id : ThunkId) :
    Option.Rel (D.simulation.State w) (s.thunk? id) (s.thunk? id) := by
  refine Simulation.optionRel_self fun t ht => ?_
  cases t with
  | pending e env =>
    refine .pending trivial (code_self ?_)
    rw [h.base]
    exact h.closed.code.pending ht
  | evaluating => exact .evaluating
  | forced v => exact .forced (h.like (h.closed.code.forced ht))

/-- Every spliced value of the store corresponds to itself at the beginning. -/
theorem spliced (h : D.Beginning s) (ref : InlineRef) :
    Option.Rel (D.simulation.value w) (s.inline? ref) (s.inline? ref) :=
  Simulation.optionRel_self fun _ hv => h.like (h.closed.code.spliced hv)

end Beginning

/-- With nothing to deliver, or with values in inline nodes that are new in the second run. -/
theorem corresponds_splices (h : D.Beginning s) (hnone : D.arguments = [])
    (hsplices : ∀ ref v, (ref, v) ∈ D.splices → s.inline? ref = some v) :
    D.simulation.Corresponds s.sizes s
      { s with inlines := s.inlines ++ (D.splices.map Prod.snd).toArray } where
  sized := ⟨rfl, by rw [h.base]; exact (worlds_simulation D).refl _⟩
  frames := rfl
  bindings := h.slot
  kept _ _ h := h.elim
  thunks id id' hid := by
    obtain rfl : id = id' := by
      rcases hid with ⟨heq, -⟩ | ⟨heq, -⟩
      · exact heq
      · rw [hnone] at heq
        exact congrArg ThunkId.mk heq
    exact h.state id
  thunkSizes := ⟨by rw [hnone]; rfl, by rw [h.base]; exact Nat.le_refl _⟩
  inlines ref ref' href := by
    have hbase : D.base.inlines = s.inlines.size := by rw [h.base]; rfl
    rw [Store.inline?, Store.inline?]
    rcases href with ⟨rfl, hlt⟩ | ⟨i, v, hi, -, hnew⟩ | ⟨-, hge, hlt⟩
    · rw [Array.getElem?_append_left (hbase ▸ hlt)]
      exact h.spliced ref
    · have hold : s.inlines[ref.index]? = some v := hsplices ref v (List.mem_of_getElem? hi)
      have hitem : (D.splices.map Prod.snd).toArray[i]? = some v := by
        rw [List.getElem?_toArray, List.getElem?_map, hi]
        rfl
      rw [hnew, hbase, Array.getElem?_append_right (Nat.le_add_right _ _), Nat.add_sub_cancel_left,
        hitem, hold]
      exact .some (h.like (h.closed.code.spliced hold))
    -- no spliced value is new to the first run yet
    · have hlt' : ref.index < s.inlines.size := hlt
      omega
  inlineSizes := ⟨by simp, by rw [h.base]; exact Nat.le_refl _⟩
  lone i ref v hi := by
    rw [hnone] at hi
    cases hi
  functions := rfl
  depth := rfl
  printed := rfl

end Delivery

/-! ### Deferring arguments -/

namespace Evaluator

theorem deferArguments_cons (frame : FrameId) (env : Env) (name : String) (params : List String)
    (e : Expr) (args : List Expr) (s : Store) :
    deferArguments frame env (name :: params) (e :: args) s =
      deferArguments frame env params args (s.bindDeferred frame name e env) := rfl

/-- What is deferred comes after all deferred values that there are, and nothing else is made. -/
theorem deferArguments_fields (frame : FrameId) (env : Env) {params : List String}
    {args : List Expr} (hlength : params.length = args.length) (s : Store) :
    deferArguments frame env params args s =
      { s with
        frames := (deferArguments frame env params args s).frames
        thunks := s.thunks ++ (args.map fun e => Thunk.pending e env).toArray } := by
  induction params generalizing args s with
  | nil =>
    obtain rfl := List.length_eq_zero_iff.1 hlength.symm
    simp [deferArguments]
  | cons name params ih =>
    obtain ⟨e, args, rfl⟩ := List.exists_cons_of_length_eq_add_one hlength.symm
    rw [deferArguments_cons, ih (Nat.succ.inj hlength)]
    simp [Store.bindDeferred, Store.bind, Store.addThunk]

/-- In the frame the names are bound to what is deferred, one after the other. -/
theorem bindings_deferArguments {frame : FrameId} (env : Env) {params : List String}
    {args : List Expr} (hlength : params.length = args.length) {s : Store}
    (hframe : frame.index < s.frames.size) (other : FrameId) :
    (deferArguments frame env params args s).bindings other =
      if other = frame then
        (params.zip ((List.range' s.thunks.size args.length).map fun i =>
          Binding.deferred ⟨i⟩)).foldl
          (fun fields entry => Fields.insert entry.1 entry.2 fields) (s.bindings frame)
      else s.bindings other := by
  induction params generalizing args s with
  | nil =>
    obtain rfl := List.length_eq_zero_iff.1 hlength.symm
    split
    · next h => rw [h]; rfl
    · rfl
  | cons name params ih =>
    obtain ⟨e, args, rfl⟩ := List.exists_cons_of_length_eq_add_one hlength.symm
    have hsize : frame.index < (s.bindDeferred frame name e env).frames.size := by
      rw [Store.size_frames_bindDeferred]
      exact hframe
    have hthunks : (s.bindDeferred frame name e env).thunks.size = s.thunks.size + 1 := by
      simp [Store.bindDeferred, Store.bind, Store.addThunk]
    have hbound : ∀ other, (s.bindDeferred frame name e env).bindings other =
        if other = frame then (s.bindings frame).insert name (.deferred ⟨s.thunks.size⟩)
        else s.bindings other := fun other => Store.bindings_bind (s.addThunk e env) _ _ _ _ hframe
    -- the first parameter is bound before the other ones, so that it comes first in the fold as
    -- well
    rw [deferArguments_cons, ih (Nat.succ.inj hlength) hsize, hthunks, hbound, hbound]
    split
    · rw [if_pos rfl, List.length_cons, List.range'_succ, List.map_cons, List.zip_cons_cons,
        List.foldl_cons]
    · rfl

end Evaluator

namespace Delivery

variable {D : Delivery} {s : Store}

/-- An entry is of an inline node in its place. -/
theorem exists_node {args : List Expr} {entries : List (InlineRef × Value)}
    (h : List.Forall₂ s.SplicesAt args entries) {i : Nat} {ref : InlineRef} {v : Value}
    (hi : entries[i]? = some (ref, v)) :
    ∃ at_, args[i]? = some (.inline v.show ref at_) ∧ s.inline? ref = some v := by
  obtain ⟨hlt, heq⟩ := List.getElem?_eq_some_iff.1 hi
  obtain ⟨hlength, hget⟩ := List.forall₂_iff_get.1 h
  obtain ⟨at_, he, hv⟩ := hget i (hlength ▸ hlt) hlt
  rw [List.get_eq_getElem, List.get_eq_getElem, heq] at he
  rw [List.get_eq_getElem, heq] at hv
  exact ⟨at_, List.getElem?_eq_some_iff.2 ⟨hlength ▸ hlt, he⟩, hv⟩

/-- New inline nodes for the values that are spliced already. -/
theorem codes_spliced (h : D.Beginning s) {args : List Expr}
    (hargs : List.Forall₂ s.SplicesAt args D.splices) :
    List.Forall₂ (D.Code s.sizes) args
      (((D.splices.map Prod.snd).zip
        (List.range' s.inlines.size (D.splices.map Prod.snd).length)).map fun entry =>
          Expr.inline entry.1.show ⟨entry.2⟩ .nowhere) := by
  have hlength : args.length = D.splices.length := hargs.length_eq
  refine List.forall₂_iff_get.2 ⟨by simp [hlength], fun i hi _ => ?_⟩
  have hentry := List.getElem?_eq_getElem (hlength ▸ hi : i < D.splices.length)
  obtain ⟨at_, harg, hv⟩ := exists_node hargs hentry
  obtain ⟨_, hnode⟩ := List.getElem?_eq_some_iff.1 harg
  have hbase : D.base.inlines = s.inlines.size := by rw [h.base]; rfl
  have hlt := (Array.getElem?_eq_some_iff.1 hv).1
  have href : D.Refs s.sizes (D.splices.get ⟨i, hlength ▸ hi⟩).1 ⟨s.inlines.size + i⟩ :=
    .inr (.inl ⟨i, _, hentry, hbase ▸ hlt, by rw [hbase]⟩)
  rw [List.get_eq_getElem, List.get_eq_getElem, hnode]
  simp only [List.getElem_map, List.getElem_zip, List.getElem_range', Nat.one_mul]
  exact .inline _ href _ _

/-- The parameters of a closure are deferred in the one run and bound in the other. -/
theorem slot_parameters (h : D.Beginning s) {args : List Expr}
    (hargs : List.Forall₂ s.SplicesAt args D.arguments) {w : Sizes} (params : List String)
    (name : String) :
    Option.Rel (D.Slot w s.nextFrame name)
      (Fields.get? name (Fields.ofList (params.zip ((List.range' s.thunks.size
        D.arguments.length).map fun i => Binding.deferred ⟨i⟩))))
      (Fields.get? name (Fields.ofList (params.zip (D.arguments.map fun entry =>
        Binding.value entry.2)))) := by
  -- the parameter is deferred to the node of the argument in the same place
  have hbound : List.Forall₂ (fun b b' => ∃ i ref v, D.arguments[i]? = some (ref, v) ∧
      b = .deferred ⟨s.thunks.size + i⟩ ∧ b' = .value v)
      ((List.range' s.thunks.size D.arguments.length).map fun i => Binding.deferred ⟨i⟩)
      (D.arguments.map fun entry => Binding.value entry.2) := by
    refine List.forall₂_iff_get.2 ⟨by simp, fun i hi hi' => ?_⟩
    rw [List.length_map] at hi'
    exact ⟨i, _, _, List.getElem?_eq_getElem hi', by simp, by simp⟩
  refine Simulation.optionRel_mono ?_ ((Fields.Alike.zip hbound).ofList.get? name)
  rintro _ _ ⟨i, ref, v, hi, rfl, rfl⟩
  obtain ⟨at_, -, hv⟩ := exists_node hargs hi
  have hbase : s.thunks.size = D.base.thunks := by rw [h.base]; rfl
  have hframe : D.base.frames ≤ s.nextFrame.index := by rw [h.base]; exact Nat.le_refl _
  rw [hbase]
  exact .argument hframe hi (h.like (h.closed.code.spliced hv))

/-- The frame of the call binds them, and the others are as before. -/
theorem slot_arguments (h : D.Beginning s) (env : Env) {params : List String} {args : List Expr}
    (hlength : params.length = args.length) (hargs : List.Forall₂ s.SplicesAt args D.arguments)
    {w : Sizes} (frame : FrameId) (name : String) :
    Option.Rel (D.Slot w frame name)
      ((Evaluator.deferArguments s.nextFrame env params args (s.addFrame [])).binding? frame name)
      ((s.addFrame (Fields.ofList (params.zip (D.arguments.map fun entry =>
        Binding.value entry.2)))).binding? frame name) := by
  have hlt : s.nextFrame.index < (s.addFrame []).frames.size := by
    rw [Store.addFrame, Array.size_push]
    exact Nat.lt_succ_self _
  have hlengths : args.length = D.arguments.length := hargs.length_eq
  rw [Store.binding?, Evaluator.bindings_deferArguments env hlength hlt, Store.binding?_addFrame,
    Store.bindings_addFrame_nextFrame]
  split
  · next hframe =>
    subst hframe
    rw [hlengths]
    exact slot_parameters h hargs params name
  · next hframe =>
    rw [Store.bindings_addFrame_of_ne hframe]
    exact h.slot frame name

/-- What is deferred waits after all that was deferred before. -/
theorem waits_arguments (h : D.Beginning s) (env : Env) {args : List Expr}
    (hargs : List.Forall₂ s.SplicesAt args D.arguments) :
    D.Waits (s.thunks ++ (args.map fun e => Thunk.pending e env).toArray) s.inlines := by
  intro i ref v hi
  have hbase : D.base.thunks = s.thunks.size := by rw [h.base]; rfl
  obtain ⟨at_, harg, hv⟩ := exists_node hargs hi
  refine .inl ⟨v.show, at_, env, ?_, hv⟩
  rw [hbase, Array.getElem?_append_right (Nat.le_add_right _ _), Nat.add_sub_cancel_left,
    List.getElem?_toArray, List.getElem?_map, harg]
  rfl

/-- The arguments of a closure, deferred in the one run and bound in the other. -/
theorem corresponds_arguments (h : D.Beginning s) (hnone : D.splices = []) (env : Env)
    {params : List String} {args : List Expr} (hlength : params.length = args.length)
    (hargs : List.Forall₂ s.SplicesAt args D.arguments) :
    let called := Evaluator.deferArguments s.nextFrame env params args (s.addFrame [])
    let applied := s.addFrame (Fields.ofList (params.zip (D.arguments.map fun entry =>
      Binding.value entry.2)))
    D.simulation.Corresponds called.sizes called applied := by
  intro called applied
  have hbase : D.base.thunks = s.thunks.size := by rw [h.base]; rfl
  have hsame : called = { s with
      frames := called.frames
      thunks := s.thunks ++ (args.map fun e => Thunk.pending e env).toArray } :=
    Evaluator.deferArguments_fields s.nextFrame env hlength (s.addFrame [])
  have hframes : called.frames.size = s.frames.size + 1 := by
    refine (Store.size_frames_deferAll (s.addFrame []) s.nextFrame env (params.zip args)).trans ?_
    rw [Store.addFrame, Array.size_push]
  have hthunks : called.thunks = s.thunks ++ (args.map fun e => Thunk.pending e env).toArray := by
    rw [hsame]
  have hinlines : called.inlines = s.inlines := by rw [hsame]
  have hlengths : args.length = D.arguments.length := hargs.length_eq
  have hsize : called.thunks.size = s.thunks.size + D.arguments.length := by
    rw [hthunks, ← hlengths]
    simp
  exact {
    sized := ⟨rfl, by
      rw [h.base]
      exact ⟨by simp [Store.sizes, hframes], by simp [Store.sizes, hsize],
        by simp [Store.sizes, hinlines]⟩⟩
    frames := hframes ▸ Array.size_push _
    bindings := slot_arguments h env hlength hargs
    kept := fun _ _ h => h.elim
    thunks := fun id id' hid => by
      rcases hid with ⟨rfl, hlt⟩ | ⟨heq, hle, hlt⟩
      · have hold : called.thunk? id = s.thunk? id := by
          rw [Store.thunk?, hthunks, Array.getElem?_append_left (hbase ▸ hlt)]
          rfl
        rw [hold]
        exact h.state id
      -- no deferred value is new to the second run yet
      · have hlt' : id.index < called.thunks.size := hlt
        omega
    thunkSizes := ⟨hsize, Nat.le_of_eq hbase⟩
    inlines := fun ref ref' href => by
      rw [Store.inline?, hinlines]
      rcases href with ⟨rfl, -⟩ | ⟨i, v, hi, -⟩ | ⟨-, hge, hlt⟩
      · exact h.spliced ref
      · rw [hnone] at hi
        cases hi
      · rw [h.base] at hge
        have hlt' : ref.index < called.inlines.size := hlt
        rw [hinlines] at hlt'
        exact absurd hlt' (Nat.not_lt.2 hge)
    inlineSizes := by
      refine ⟨?_, ?_⟩
      · rw [hnone, hinlines]
        rfl
      · rw [h.base, hinlines]
        exact Nat.le_refl _
    lone := by
      rw [hthunks, hinlines]
      exact waits_arguments h env hargs
    functions := by rw [hsame]; rfl
    depth := by rw [hsame]; rfl
    printed := by rw [hsame]; rfl }

/-! ### The ends -/

/-- Runs that correspond at their ends have ended in the same way. -/
theorem sameEnd_of_corresponds (h : D.Beginning s) {w : Sizes}
    {x y : Outcome EvalError Value × Store} (hstore : D.simulation.Corresponds w x.2 y.2)
    (hend : Outcome.Alike (EvalError.Alike Eq) (Value.Like (D.likeness w)) x.1 y.1) :
    s.SameEnd x y where
  printed := hstore.printed
  outcome := by
    generalize x.1 = r at hend ⊢
    generalize y.1 = r' at hend ⊢
    cases hend with
    | ok hv => exact .ok (Value.Like.sameData hv)
    | outOfFuel => exact .outOfFuel
    | error he =>
      rw [he.eq]
      exact .error (.same _)
  frames frame name hframe := by
    have hbase : D.base.frames = s.frames.size := by rw [h.base]; rfl
    refine Simulation.optionRel_mono (fun b b' hslot => ?_) (hstore.bindings frame name)
    cases hslot with
    -- arguments are bound only in frames that were not there before
    | argument hnew => exact absurd hframe (Nat.not_lt.2 (hbase ▸ hnew))
    | same halike hold =>
      cases halike with
      | value hv => exact .value hv.sameData
      | @deferred id id' hid =>
        have hlt := hold (hbase ▸ hframe) id rfl
        have hstate := hstore.thunks id id' hid
        -- an old deferred value stands for itself
        obtain rfl : id = id' := by
          rcases hid with ⟨heq, -⟩ | ⟨heq, hle, -⟩
          · exact heq
          · omega
        refine .deferred id (Simulation.optionRel_mono (fun t t' ht => ?_) hstate)
        cases ht with
        | pending => exact .pending _ _ _
        | exceptional h => exact h.elim
        | evaluating => exact .evaluating
        | forced hv => exact .forced hv.sameData

/-- From corresponding stores, code that corresponds comes to the same end, unless a run is lost. -/
theorem lost_or_sameEnd (h : D.Beginning s) {w : Sizes}
    {x y : Outcome EvalError Value × Store} (hends : D.simulation.Ends w D.simulation.value x y) :
    (D.arguments ≠ [] ∧ ∃ limit, x.1 = .error (.tooDeep limit)) ∨ D.first ∧ x.1 = .outOfFuel ∨
      D.second ∧ y.1 = .outOfFuel ∨ s.SameEnd x y := by
  rcases hends with (⟨_, he, hne, limit, rfl⟩ | hfirst | hsecond) | ⟨w', -, hstore, hend⟩
  · exact .inl ⟨hne, limit, he⟩
  · exact .inr (.inl hfirst)
  · exact .inr (.inr (.inl hsecond))
  · exact .inr (.inr (.inr (sameEnd_of_corresponds h hstore hend)))

end Delivery

/-! ### Functions of each kind -/

namespace Store

variable {s : Store} {args : List Expr} {vs : List Value}

/-- The inline nodes, each with the reference under which its value is kept. -/
theorem exists_entries (h : List.Forall₂ s.Splices args vs) :
    ∃ entries : List (InlineRef × Value), entries.map Prod.snd = vs ∧
      List.Forall₂ s.SplicesAt args entries := by
  induction h with
  | nil => exact ⟨[], rfl, .nil⟩
  | @cons e v args vs hsplice _ ih =>
    obtain ⟨ref, at_, he, hv⟩ := hsplice
    obtain ⟨entries, hvs, hentries⟩ := ih
    exact ⟨(ref, v) :: entries, congrArg (v :: ·) hvs, .cons ⟨at_, he, hv⟩ hentries⟩

/-- The values of inline nodes. -/
theorem evalAll_splices (h : List.Forall₂ s.Splices args vs) (n : Nat) (env : Env) :
    (Evaluator.level (n + 1)).evalAll env args s = (.ok vs, s) := by
  induction h with
  | nil => rfl
  | cons hsplice _ ih =>
    obtain ⟨ref, at_, rfl, hv⟩ := hsplice
    rw [Evaluator.evalAll, List.mapM_cons, Eval.bind_of_ok (Evaluator.eval_inline n hv env _ at_)]
    rw [Evaluator.evalAll] at ih
    rw [Eval.bind_of_ok ih]
    rfl

/-- Values that are spliced one after the other. -/
theorem mapM_splice (vs : List Value) (s : Store) :
    (vs.mapM fun v => Eval.splice v .nowhere) s =
      (.ok ((vs.zip (List.range' s.inlines.size vs.length)).map fun entry =>
        Expr.inline entry.1.show ⟨entry.2⟩ .nowhere), { s with inlines := s.inlines ++ vs.toArray })
    := by
  induction vs generalizing s with
  | nil => simp
  | cons v vs ih =>
    have hsplice : Eval.splice v .nowhere s =
        (.ok (.inline v.show s.nextInline .nowhere), s.addInline v) := rfl
    rw [List.mapM_cons, Eval.bind_of_ok hsplice, Eval.bind_of_ok (ih (s.addInline v))]
    simp [addInline, nextInline, List.range'_succ]

end Store

namespace Evaluator

variable {ev : Evaluator} {s : Store} {env : Env} {c : Closure}

/-- A wrong number of arguments is an error that changes nothing. -/
theorem checkArity_of_not_accepts {name : String} {expected : Arity} {got : Nat}
    (h : expected.accepts got = false) :
    checkArity name expected got s = (.error (.arity name expected got), s) := by
  rw [checkArity, if_neg (by rw [h]; exact Bool.false_ne_true)]
  rfl

/-- A closure binds its parameters to the values in a new frame. -/
theorem applyValue_closure {vs : List Value} (hlength : c.params.length = vs.length) :
    ev.applyValue env (.closure c) vs s = ev.eval (c.env.within s.nextFrame) c.body
      (s.addFrame (Fields.ofList (c.params.zip (vs.map .value)))) :=
  Eval.bind_of_ok (checkArity_of_accepts (by simp [Arity.accepts, hlength]) s)

end Evaluator

/-! ### Closed stores -/

/-- A fresh environment refers to nothing in the store. -/
theorem closed_globalEnv (mode : PipeMode) : (globalEnv mode).2.Closed where
  deferred h := by
    rcases Store.binding?_of_addFrame h with hglobal | hold
    · cases hglobal
    · rcases Store.binding?_of_addFrame hold with hroot | hempty
      · obtain ⟨_, hv, -⟩ := binding_of_mem_rootBindings hroot
        cases hv
      · simp [Store.binding?, Store.bindings, Store.empty, Fields.get?] at hempty
  code := runs_globalEnv mode _ _

namespace Delivery

/-- The delivery of nothing, from a store on. -/
def nothing (s : Store) : Delivery := { base := s.sizes }

/-- A spliced value that stands for itself is there. -/
theorem closed_of_refs {s : Store} {w : Sizes} {n : Nat} (hbase : s.inlines.size ≤ n)
    (hw : w.inlines ≤ n) {e e' : Expr} (h : (nothing s).Code w e e') :
    e.Alike ⟨Eq, fun ref ref' => ref = ref' ∧ ref.index < n⟩ e' := by
  refine h.mono_ref fun ref ref' href => ?_
  rcases href with ⟨heq, hlt⟩ | ⟨i, v, hi, -⟩ | ⟨heq, -, hlt⟩
  · exact ⟨heq, Nat.lt_of_lt_of_le hlt hbase⟩
  · cases hi
  · exact ⟨congrArg InlineRef.mk heq.symm, Nat.lt_of_lt_of_le hlt hw⟩

/-- So a value that is like itself refers only to what is there. -/
theorem closed_of_like {s : Store} {w : Sizes} {n : Nat} (hbase : s.inlines.size ≤ n)
    (hw : w.inlines ≤ n) {v : Value} (h : v.Like ((nothing s).likeness w) v) : v.Closed n :=
  fun _ hc => closed_of_refs hbase hw (List.forall₂_same.1 h.closures_alike _ hc).body

/-- A store that corresponds to itself is closed. -/
theorem closed_of_corresponds {s t : Store} {w : Sizes}
    (h : (nothing s).simulation.Corresponds w t t) : t.Closed := by
  obtain ⟨rfl, hbase⟩ := h.sized
  have hvalue : ∀ {v : Value}, v.Like ((nothing s).likeness t.sizes) v → v.Closed t.inlines.size :=
    fun hv => closed_of_like hbase.inlines (Nat.le_refl _) hv
  -- what is there stands for itself, as nothing is shifted
  have hself : ∀ id : ThunkId, id.index < t.thunks.size → (nothing s).Thunks t.sizes id id := by
    intro id hlt
    rcases Nat.lt_or_ge id.index s.thunks.size with hold | hnew
    · exact .inl ⟨rfl, hold⟩
    · exact .inr ⟨rfl, hnew, hlt⟩
  have hstate : ∀ {id : ThunkId} {x : Thunk}, t.thunk? id = some x →
      (nothing s).simulation.State t.sizes x x :=
    fun hx => Simulation.of_optionRel_self
      (h.thunks _ _ (hself _ (Store.lt_size_of_thunk? hx))) hx
  have hslot : ∀ {frame name b}, t.binding? frame name = some b →
      Binding.Alike ((nothing s).likeness t.sizes) ((nothing s).Thunks t.sizes) b b := by
    intro frame name b hb
    cases Simulation.of_optionRel_self (h.bindings frame name) hb with
    | same halike => exact halike
  refine ⟨fun hb => ?_, fun hb => ?_, fun hx => ?_, fun hx => ?_, fun {ref v} hv => ?_⟩
  · cases hslot hb with
    | deferred hid =>
      rcases hid with ⟨-, hlt⟩ | ⟨-, -, hlt⟩
      · exact Nat.lt_of_lt_of_le hlt hbase.thunks
      · exact hlt
  · cases hslot hb with
    | value hv => exact hvalue hv
  · cases hstate hx with
    | pending _ hcode => exact closed_of_refs hbase.inlines (Nat.le_refl _) hcode
    | exceptional h => exact h.elim
  · cases hstate hx with
    | forced hv => exact hvalue hv
  · have hlt : ref.index < t.inlines.size := (Array.getElem?_eq_some_iff.1 hv).1
    have hself : (nothing s).Refs t.sizes ref ref := by
      rcases Nat.lt_or_ge ref.index s.inlines.size with hold | hnew
      · exact .inl ⟨rfl, hold⟩
      · exact .inr (.inr ⟨rfl, hnew, hlt⟩)
    exact hvalue (Simulation.of_optionRel_self (h.inlines ref ref hself) hv)

end Delivery

/-- Statements that refer to no spliced values but those that are there leave a closed store closed,
and have a value that is so too, however they end. -/
theorem Store.Closed.program {s : Store} (hs : s.Closed) {stmts : List Expr}
    (hstmts : ∀ e ∈ stmts, e.Closed s.inlines.size) (env : Env) (n : Nat) :
    let ran := (Request.program env stmts).run (.level n) s
    ran.2.Closed ∧ ∀ v, ran.1 = .ok v → v.Closed ran.2.inlines.size := by
  intro ran
  let D : Delivery := .nothing s
  have hbegin : D.Beginning s := ⟨hs, rfl⟩
  have hagree : D.simulation.Agree (.level n) (.level n) := Delivery.agree_level (.inl rfl) n
  -- the store corresponds to itself if no argument is delivered at all
  have hstart := Delivery.corresponds_splices hbegin rfl (by rintro _ _ ⟨⟩)
  have hcodes : List.Forall₂ (D.simulation.code s.sizes env) stmts stmts :=
    List.forall₂_same.2 fun e he => Delivery.code_self (hstmts e he)
  have hsame : { s with inlines := s.inlines ++ (D.splices.map Prod.snd).toArray } = s := by
    simp [D, Delivery.nothing]
  rw [hsame] at hstart
  have henv : D.simulation.env s.sizes env := trivial
  have hrun := hagree.evalStatements (Delivery.worlds_simulation D) henv hcodes s s hstart
  obtain ⟨w, -, hstore, hend⟩ :=
    hrun.of_not_lost (fun _ h => h.1 rfl) (fun h => h) fun h => h
  refine ⟨Delivery.closed_of_corresponds hstore, fun v hv => ?_⟩
  obtain ⟨rfl, hbase⟩ := hstore.sized
  change Outcome.Alike _ _ ran.1 ran.1 at hend
  rw [hv] at hend
  cases hend with
  | ok hlike => exact Delivery.closed_of_like hbase.inlines (Nat.le_refl _) hlike

/-! ### Both ways for each function -/

/-- How deeply the two runs may nest: equally deep, or the first one by one level more.  In the one
case the first run may give up before the second one, in the other case the second run. -/
inductive Bounds (first second : Prop) : Nat → Nat → Prop
  | same (h : first) (n : Nat) : Bounds first second n n
  | succ (h : second) (n : Nat) : Bounds first second (n + 1) n

/-- Levels that are bounded in this way agree. -/
theorem Bounds.agree {D : Delivery} {m n : Nat} (h : Bounds D.first D.second m n) :
    D.simulation.Agree (.level m) (.level n) := by
  cases h with
  | same h => exact Delivery.agree_level (.inr h) _
  | succ h => exact Delivery.agree_level_succ h _

/-- The runs end in the same way, or the first one fails for its nesting, or a run gives up that may
do so. -/
def Store.LostOrSameEnd (s : Store) (first second : Prop)
    (called applied : Outcome EvalError Value × Store) : Prop :=
  (∃ limit, called.1 = .error (.tooDeep limit)) ∨ first ∧ called.1 = .outOfFuel ∨
    second ∧ applied.1 = .outOfFuel ∨ s.SameEnd called applied

section

variable {s : Store} {args : List Expr} {vs : List Value} (env : Env) (callee : Expr)
  {first second : Prop} {m n : Nat}

/-- The parameters of a closure are deferred, or bound to the values. -/
theorem closure_ends (hs : s.Closed) (hargs : List.Forall₂ s.Splices args vs)
    (hbounds : Bounds first second m n) {c : Closure} (hc : c.body.Closed s.inlines.size) :
    s.LostOrSameEnd first second ((Evaluator.level m).applyCall env (.closure c) args callee s)
      ((Evaluator.level n).applyValue env (.closure c) vs s) := by
  obtain ⟨entries, rfl, hentries⟩ := Store.exists_entries hargs
  have hlengths : args.length = (entries.map Prod.snd).length := hargs.length_eq
  by_cases hlength : c.params.length = args.length
  · let D : Delivery := { base := s.sizes, arguments := entries, first, second }
    have hbegin : D.Beginning s := ⟨hs, rfl⟩
    have hagree : D.simulation.Agree (.level m) (.level n) := hbounds.agree
    have hstart := Delivery.corresponds_arguments hbegin rfl env hlength hentries
    have henv : D.simulation.env (s.called env c args).sizes (c.env.within s.nextFrame) := trivial
    have hbody := hagree.eval henv (Delivery.code_self hc) _ _ hstart
    have hvalues : entries.map (fun entry => Binding.value entry.2) =
        (entries.map Prod.snd).map Binding.value := by rw [List.map_map]; rfl
    rw [Evaluator.applyCall_closure hlength callee,
      Evaluator.applyValue_closure (hlength.trans hlengths), ← hvalues]
    -- the demand for an argument may be too deep, on which nothing is claimed
    rcases Delivery.lost_or_sameEnd hbegin hbody with ⟨-, hdeep⟩ | hrest
    · exact .inl hdeep
    · exact .inr hrest
  -- else both fail before anything is bound, with texts that differ in what they name
  · have hwrong : (Arity.exactly c.params.length).accepts args.length = false := by
      simp [Arity.accepts, Ne.symm hlength]
    have hcall : (Evaluator.level m).applyCall env (.closure c) args callee s =
        (.error (.arity callee.print (.exactly c.params.length) args.length), s) :=
      Eval.bind_of_error (Evaluator.checkArity_of_not_accepts hwrong)
    have happly : (Evaluator.level n).applyValue env (.closure c) (entries.map Prod.snd) s =
        (.error (.arity "function" (.exactly c.params.length) args.length), s) := by
      rw [hlengths] at hwrong ⊢
      exact Eval.bind_of_error (Evaluator.checkArity_of_not_accepts hwrong)
    rw [hcall, happly]
    exact .inr (.inr (.inr (.of_store (.error (.arity _ _ _ _)) s)))

/-- A special builtin gets the inline nodes, or new ones with the same values. -/
theorem special_ends (hs : s.Closed) (hargs : List.Forall₂ s.Splices args vs)
    (hbounds : Bounds first second m n) (special : Special) :
    s.LostOrSameEnd first second
      ((Evaluator.level m).applyCall env (.special special) args callee s)
      ((Evaluator.level n).applyValue env (.special special) vs s) := by
  obtain ⟨entries, rfl, hentries⟩ := Store.exists_entries hargs
  let D : Delivery := { base := s.sizes, splices := entries, first, second }
  have hbegin : D.Beginning s := ⟨hs, rfl⟩
  have hagree : D.simulation.Agree (.level m) (.level n) := hbounds.agree
  -- the nodes that the call has are still there in the run that gets new ones
  have hkept : ∀ ref v, (ref, v) ∈ D.splices → s.inline? ref = some v := by
    intro ref v hmem
    obtain ⟨i, hi⟩ := List.mem_iff_getElem?.1 hmem
    obtain ⟨at_, -, hv⟩ := Delivery.exists_node hentries hi
    exact hv
  have hcodes : List.Forall₂ (D.simulation.code s.sizes env) args _ :=
    Delivery.codes_spliced hbegin hentries
  have henv : D.simulation.env s.sizes env := trivial
  have hspecial : D.simulation.free ∨ ∀ op, special ≠ .pipe op := .inl trivial
  have hrun := hagree.applySpecial (Delivery.sound_simulation D) (Delivery.chains hagree) henv
    hspecial hcodes _ _ (Delivery.corresponds_splices hbegin rfl hkept)
  have happly : (Evaluator.level n).applyValue env (.special special) (entries.map Prod.snd) s =
      (Evaluator.level n).applySpecial env special _ _ :=
    Eval.bind_of_ok (Store.mapM_splice (entries.map Prod.snd) s)
  rw [happly]
  rcases Delivery.lost_or_sameEnd hbegin hrun with ⟨-, hdeep⟩ | hrest
  · exact .inl hdeep
  · exact .inr hrest

/-- To call a function that has its arguments evaluated is to apply it to the values. -/
theorem evaluated_ends (hargs : List.Forall₂ s.Splices args vs)
    (hbounds : Bounds first second m n) {f : Value}
    (hcall : ∀ ev : Evaluator, ev.applyCall env f args callee =
      do let vs ← ev.evalAll env args; ev.apply env f vs) :
    s.LostOrSameEnd first second ((Evaluator.level m).applyCall env f args callee s)
      ((Evaluator.level n).applyValue env f vs s) := by
  have hsucc : ∀ k, (Evaluator.level (k + 1)).applyCall env f args callee s =
      (Evaluator.level k).applyValue env f vs s := by
    intro k
    rw [hcall, Eval.bind_of_ok (Store.evalAll_splices hargs k env)]
    rfl
  cases hbounds with
  -- one level more is spent on reading the nodes
  | succ h =>
    rw [hsucc]
    exact .inr (.inr (.inr (.refl _ s)))
  | same h =>
    by_cases hout : ((Evaluator.level m).applyCall env f args callee s).1 = .outOfFuel
    · exact .inr (.inl ⟨h, hout⟩)
    · cases m with
      | zero =>
        refine absurd ?_ hout
        rw [hcall]
        cases args <;> rfl
      | succ k =>
        -- at the same level the call is one level behind, but has not given up
        have hmono := Request.run_mono (Nat.le_succ (k + 1)) (.apply env f vs) (hsucc k ▸ hout)
        have hsame : (Evaluator.level (k + 1)).applyValue env f vs s =
            (Evaluator.level (k + 1)).applyCall env f args callee s := hmono.trans (hsucc k).symm
        rw [hsame]
        exact .inr (.inr (.inr (.refl _ s)))

/-- Both ways of giving a function its arguments, for a function of any kind. -/
theorem lostOrSameEnd (hs : s.Closed) (hargs : List.Forall₂ s.Splices args vs)
    (hbounds : Bounds first second m n) {f : Value} (hf : f.Closed s.inlines.size) :
    s.LostOrSameEnd first second ((Evaluator.level m).applyCall env f args callee s)
      ((Evaluator.level n).applyValue env f vs s) := by
  have hnone : s.LostOrSameEnd first second (.error (.notFunction callee.print), s)
      (.error (.notFunction f.show), s) :=
    .inr (.inr (.inr (.of_store (.error (.notFunction _ _)) s)))
  cases f with
  | closure c =>
    exact closure_ends env callee hs hargs hbounds (hf c (by simp [Value.closures]))
  | special special => exact special_ends env callee hs hargs hbounds special
  | native n => exact evaluated_ends env callee hargs hbounds fun _ => rfl
  | sequence id steps => exact evaluated_ends env callee hargs hbounds fun _ => rfl
  | _ => exact hnone

end

/-! ### The two ways agree -/

/-- In a closed store, the call of a function with inline nodes and its application to their values
end in the same way, unless the call fails because too many deferred values are evaluated within one
another.  They do so at any bounds that are large enough for both; and a bound that is large enough
for the one is so, up to one level, for the other. -/
theorem application_paths_agree {s : Store} (hs : s.Closed) {f : Value}
    (hf : f.Closed s.inlines.size) {args : List Expr} {vs : List Value}
    (hargs : List.Forall₂ s.Splices args vs) (env : Env) (callee : Expr) :
    let called (n : Nat) := (Request.call env f args callee).run (.level n) s
    let applied (n : Nat) := (Request.apply env f vs).run (.level n) s
    (∀ n, (applied n).1 ≠ .outOfFuel → (called n).1 ≠ .outOfFuel) ∧
      (∀ n, (called n).1 ≠ .outOfFuel → (∀ limit, (called n).1 ≠ .error (.tooDeep limit)) →
        (applied (n + 1)).1 ≠ .outOfFuel) ∧
      ∀ m n, (called m).1 ≠ .outOfFuel → (applied n).1 ≠ .outOfFuel →
        (∀ limit, (called m).1 ≠ .error (.tooDeep limit)) → s.SameEnd (called m) (applied n) := by
  intro called applied
  have hnext : ∀ n, (called n).1 ≠ .outOfFuel →
      (∀ limit, (called n).1 ≠ .error (.tooDeep limit)) →
        s.SameEnd (called n) (applied (n + 1)) := by
    intro n hout hshallow
    rcases lostOrSameEnd env callee hs hargs (.same trivial n : Bounds True False n n) hf with
      ⟨limit, hdeep⟩ | ⟨-, hlost⟩ | ⟨hno, -⟩ | hend
    · exact absurd hdeep (hshallow limit)
    · exact absurd hlost hout
    · exact hno.elim
    · exact hend
  refine ⟨fun n hout => ?_, fun n hout hshallow => ?_, fun m n hcalled happlied hshallow => ?_⟩
  · cases n with
    | zero => exact absurd rfl hout
    | succ n =>
      intro hlost
      rcases lostOrSameEnd env callee hs hargs (.succ trivial n : Bounds False True (n + 1) n) hf
        with ⟨limit, hdeep⟩ | ⟨hno, -⟩ | ⟨-, hlost'⟩ | hend
      · cases hdeep.symm.trans hlost
      · exact hno.elim
      · exact hout hlost'
      · exact hout (hend.outOfFuel_iff.1 hlost)
  · exact fun hlost => hout ((hnext n hout hshallow).outOfFuel_iff.2 hlost)
  · have hend := hnext m hcalled hshallow
    have hlarge : (applied (m + 1)).1 ≠ .outOfFuel := fun hlost =>
      hcalled (hend.outOfFuel_iff.2 hlost)
    -- what ends at two bounds ends in the same way at both
    have hsame : applied n = applied (m + 1) :=
      (Request.run_mono (Nat.le_max_left n (m + 1)) (.apply env f vs) happlied).symm.trans
        (Request.run_mono (Nat.le_max_right n (m + 1)) (.apply env f vs) hlarge)
    rw [hsame]
    exact hend

/-- A function that doubles its argument, called with an inline node for three and applied to it. -/
theorem paths_agree_for_double :
    let env := (globalEnv .auto).1
    let s := (globalEnv .auto).2.addInline (.int 3)
    let x : Expr := .sym "x" .nowhere
    let double : Value :=
      .closure ⟨⟨0⟩, ["x"], .call (.sym "+" .nowhere) [x, x] .nowhere, env⟩
    let called := (Request.call env double [.inline "3" ⟨0⟩ .nowhere] x).run (.level 9) s
    let applied := (Request.apply env double [.int 3]).run (.level 9) s
    s.Closed ∧ called.1 = .ok (.int 6) ∧ applied.1 = .ok (.int 6) ∧ s.SameEnd called applied := by
  intro env s x double called applied
  have hs : s.Closed :=
    ⟨fun h => (closed_globalEnv .auto).deferred h, (runs_globalEnv .auto _ _).addInline (by simp)⟩
  have hx : x.Closed s.inlines.size := .sym rfl _ _
  have hdouble : double.Closed s.inlines.size := by
    refine Value.runs_closure.2 ?_
    exact .call (.sym rfl _ _) (.cons hx (.cons hx .nil)) _ _
  have hcalled : called.1 = .ok (.int 6) := rfl
  have happlied : applied.1 = .ok (.int 6) := rfl
  refine ⟨hs, hcalled, happlied, ?_⟩
  have hargs : List.Forall₂ s.Splices [.inline "3" ⟨0⟩ .nowhere] [.int 3] :=
    .cons ⟨⟨0⟩, .nowhere, rfl, rfl⟩ .nil
  obtain ⟨-, -, hagree⟩ := application_paths_agree hs hdouble hargs env x
  refine hagree 9 9 ?_ ?_ ?_
  · rintro h
    cases hcalled.symm.trans h
  · rintro h
    cases happlied.symm.trans h
  · rintro limit h
    cases hcalled.symm.trans h

end PipeLang
