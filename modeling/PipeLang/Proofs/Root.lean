import PipeLang.Program
import PipeLang.Proofs.Unwritten

/-!
# The frame of the builtins

The root frame binds the builtins, and no program writes to it.  What a program can write to are
the own frame of an environment and the frames around it before the root.  So it is enough that
every environment that an evaluation comes upon lies inside the root frame (`Env.Inside`), and
that the store holds no other (`Store.Rooted`): then every write goes elsewhere, and every
environment that is made or kept is again one inside the root frame (`lawful_rooted`).

A session is any sequence of programs in the global environment and those within it.  In all of a
session the names qualified by `base` refer to the builtins (`builtins_are_never_rebound`).
-/

namespace PipeLang

/-! ### Environments inside a frame -/

/-- The environment sees the frame as its outermost one only, and has frames of its own. -/
structure Env.Inside (root : FrameId) (env : Env) : Prop where
  rootFrame : env.rootFrame = root
  own : env.own ≠ root
  outer : root ∉ env.outer.dropLast

namespace Env.Inside

variable {root : FrameId} {env : Env}

/-- Inside a frame there is one to look further out to. -/
theorem outer_ne_nil (h : env.Inside root) : env.outer ≠ [] := by
  intro hnil
  refine h.own ?_
  rw [← h.rootFrame]
  simp [Env.rootFrame, visible, hnil]

/-- A new frame inside an environment is inside the same frame. -/
theorem within (h : env.Inside root) {frame : FrameId} (hframe : frame ≠ root) :
    (env.within frame).Inside root where
  rootFrame := by rw [rootFrame_within, h.rootFrame]
  own := hframe
  outer := by
    show root ∉ (env.own :: env.outer).dropLast
    rw [List.dropLast_cons_of_ne_nil h.outer_ne_nil, List.mem_cons, not_or]
    exact ⟨h.own.symm, h.outer⟩

/-- An assignment to an outer variable goes to a frame before the outermost one. -/
theorem assignedFrame_ne (h : env.Inside root) (s : Store) (name : String) :
    s.assignedFrame env name ≠ root := by
  intro heq
  rcases s.assignedFrame_mem env name with hmem | ⟨-, hown⟩
  · exact h.outer (heq ▸ hmem)
  · exact h.own (hown.symm.trans heq)

end Env.Inside

theorem Env.avoiding_inside (root : FrameId) : Env.Avoiding root (Env.Inside root) where
  own := Env.Inside.own
  assigned := Env.Inside.assignedFrame_ne
  within henv hother := henv.within hother

/-! ### Stores with the builtins -/

/-- A frame binds the builtins, and all environments of the store lie inside it. -/
structure Store.Rooted (root : FrameId) (s : Store) : Prop where
  lt_size : root.index < s.frames.size
  bindings : s.bindings root = rootBindings
  held : ∀ env, s.Holds env → env.Inside root

namespace Store.Rooted

variable {root : FrameId} {s : Store}

theorem unwritten_iff :
    s.Unwritten root (Env.Inside root) rootBindings ↔ s.Rooted root :=
  ⟨fun h => ⟨h.lt_size, h.bindings, h.held⟩, fun h => ⟨h.lt_size, h.bindings, h.held⟩⟩

theorem nextFrame_ne (hs : s.Rooted root) : s.nextFrame ≠ root :=
  (unwritten_iff.2 hs).nextFrame_ne

/-- A further frame may bind any values over environments inside the root. -/
theorem addFrame (hs : s.Rooted root) {fields : Fields Binding}
    (h : ∀ name v, fields.get? name = some (.value v) → v.Over (Env.Inside root)) :
    (s.addFrame fields).Rooted root :=
  unwritten_iff.1 ((unwritten_iff.2 hs).addFrame h)

end Store.Rooted

/-! ### The invariant -/

/-- Evaluations inside a frame that binds the builtins. -/
def Invariant.rooted (root : FrameId) : Invariant where
  env := Env.Inside root
  store := Store.Rooted root
  mayGiveUp := False

namespace Invariant

variable {root : FrameId}

theorem value_rooted_iff {v : Value} : (rooted root).value v ↔ v.Over (Env.Inside root) :=
  Value.over_iff_runs.symm

/-- That the builtins are in the root is that the root is unwritten. -/
theorem unwritten_inside (root : FrameId) :
    unwritten root (Env.Inside root) rootBindings = rooted root := by
  have hstore : Store.Unwritten root (Env.Inside root) rootBindings = Store.Rooted root :=
    funext fun _ => propext Store.Rooted.unwritten_iff
  rw [unwritten, rooted, hstore]

theorem lawful_rooted (root : FrameId) : (rooted root).Lawful :=
  unwritten_inside root ▸ lawful_unwritten (Env.avoiding_inside root) rootBindings

/-- Deferred values are evaluated in environments inside the root, so they write elsewhere. -/
theorem forces_rooted {ev other : Evaluator} (hev : (rooted root).Agree ev other) :
    (rooted root).Forces ev other := by
  rw [← unwritten_inside] at hev ⊢
  exact forces_unwritten hev

theorem kept_rooted (root : FrameId) : Kept fun _ : Unit => rooted root :=
  .of_lawful (fun _ => rfl) (fun _ => lawful_rooted root)
    fun _ _ hagree _ => forces_rooted (hagree ())

end Invariant

/-! ### Sessions -/

/-- The root frame of the global environment. -/
def builtinFrame : FrameId := Store.empty.nextFrame

/-- The environments that an answer holds. -/
def Outcome.envs : Outcome EvalError Value → List Env
  | .ok v => v.envs
  | .error _ | .outOfFuel => []

/-- What a host can come to by running programs in the global environment: some environments that
it knows and a store.  It can make environments within those it knows, get to know those that the
store or an answer holds, and run any program in any of them, in whatever way that ends. -/
inductive Session (mode : PipeMode) : List Env → Store → Prop
  | start : Session mode [(globalEnv mode).1] (globalEnv mode).2
  | child {envs : List Env} {env : Env} {s : Store} (h : Session mode envs s) (henv : env ∈ envs) :
      Session mode ((s.addChild env []).1 :: envs) (s.addChild env []).2
  | held {envs : List Env} {env : Env} {s : Store} (h : Session mode envs s) (henv : s.Holds env) :
      Session mode (env :: envs) s
  | run {envs : List Env} {env : Env} {s : Store} (h : Session mode envs s) (henv : env ∈ envs)
      (n : Nat) (stmts : List Expr) :
      Session mode (((Evaluator.level n).evalStatements env stmts s).1.envs ++ envs)
        ((Evaluator.level n).evalStatements env stmts s).2

/-- The qualified name of each builtin refers to it, whatever evaluates it. -/
def Env.SeesBuiltins (env : Env) (s : Store) : Prop :=
  ∀ ev : Evaluator,
    (∀ n : Native, ev.lookup env ("base::" ++ n.name) s = (.ok (.native n), s)) ∧
      ∀ special : Special, ev.lookup env ("base::" ++ special.name) s = (.ok (.special special), s)

/-! ### The builtins by name -/

/-- A name is qualified by `base::` in front of it. -/
theorem unqualified?_base (name : String) : unqualified? ("base::" ++ name) = some name := by
  have hgo : unqualified?.go ("base::" ++ name).toList = some name.toList := by
    rw [String.toList_append]
    rfl
  rw [unqualified?, hgo, Option.map_some, String.ofList_toList]

/-- Each builtin under its name. -/
def builtinEntries : List (String × Binding) :=
  Native.all.map (fun n => (n.name, .value (.native n))) ++
    Special.all.map fun s => (s.name, .value (.special s))

/-- No two builtins have the same name. -/
theorem nodup_builtinNames : (builtinEntries.map Prod.fst).Nodup := by decide

/-- The root binds each native function to its name. -/
theorem get?_rootBindings_native (n : Native) :
    rootBindings.get? n.name = some (.value (.native n)) := by
  refine Fields.get?_ofList nodup_builtinNames ?_
  exact List.mem_append_left _ (List.mem_map.2 ⟨n, Native.mem_all n, rfl⟩)

theorem get?_rootBindings_special (special : Special) :
    rootBindings.get? special.name = some (.value (.special special)) := by
  refine Fields.get?_ofList nodup_builtinNames ?_
  exact List.mem_append_right _ (List.mem_map.2 ⟨special, Special.mem_all special, rfl⟩)

/-- A builtin is over no environment. -/
theorem binding_of_mem_rootBindings {name : String} {b : Binding}
    (h : rootBindings.get? name = some b) : ∃ v, b = .value v ∧ v.envs = [] := by
  rcases List.mem_append.1 (Fields.mem_of_mem_ofList (Fields.mem_of_get? h)) with hmem | hmem
  · obtain ⟨n, -, heq⟩ := List.mem_map.1 hmem
    cases heq
    exact ⟨_, rfl, rfl⟩
  · obtain ⟨special, -, heq⟩ := List.mem_map.1 hmem
    cases heq
    exact ⟨_, rfl, rfl⟩

theorem value_of_mem_rootBindings {name : String} {v : Value}
    (h : rootBindings.get? name = some (.value v)) : v.envs = [] := by
  obtain ⟨_, heq, henvs⟩ := binding_of_mem_rootBindings h
  cases heq
  exact henvs

/-- From inside the root each builtin is found under its qualified name. -/
theorem Store.Rooted.seesBuiltins {root : FrameId} {s : Store} {env : Env} (hs : s.Rooted root)
    (henv : env.Inside root) : env.SeesBuiltins s := by
  have key : ∀ (ev : Evaluator) (name : String) (v : Value),
      rootBindings.get? name = some (.value v) →
        ev.lookup env ("base::" ++ name) s = (.ok v, s) := by
    intro ev name v hget
    have hbinding : s.binding? env.rootFrame name = some (.value v) := by
      rw [binding?, henv.rootFrame, hs.bindings, hget]
    have hresolve : s.resolve env ("base::" ++ name) = .ok (.value v) := by
      simp only [resolve, unqualified?_base, hbinding, resolve.toExcept]
    rw [ev.lookup_of_resolve hresolve]
    rfl
  intro ev
  exact ⟨fun n => key ev _ _ (get?_rootBindings_native n),
    fun special => key ev _ _ (get?_rootBindings_special special)⟩

/-! ### Whole sessions -/

/-- A fresh environment is inside a root that binds the builtins and nothing else. -/
theorem rooted_globalEnv (mode : PipeMode) :
    (globalEnv mode).1.Inside builtinFrame ∧ (globalEnv mode).2.Rooted builtinFrame := by
  have hroot : (Store.empty.addFrame rootBindings).Rooted builtinFrame := by
    refine ⟨Nat.zero_lt_one, Store.bindings_addFrame_nextFrame _ _, fun env henv => ?_⟩
    rcases Store.Holds.of_addFrame henv with ⟨name, v, hget, hmem⟩ | hold
    · rw [value_of_mem_rootBindings hget] at hmem
      cases hmem
    · cases hold with
      | bound hbinding =>
        simp [Store.binding?, Store.bindings, Store.empty, Fields.get?] at hbinding
      | pending hthunk | forced hthunk => simp [Store.thunk?, Store.empty] at hthunk
      | spliced hinline => simp [Store.inline?, Store.empty] at hinline
  have hown : (globalEnv mode).1.own ≠ builtinFrame := by
    show (⟨1⟩ : FrameId) ≠ ⟨0⟩
    decide
  exact ⟨⟨rfl, hown, List.not_mem_nil⟩, hroot.addFrame (by rintro _ _ ⟨⟩)⟩

/-- A request leaves the root as it is, and its value is over environments inside it. -/
theorem Store.Rooted.run {root : FrameId} {s : Store} (hs : s.Rooted root) (n : Nat) {r : Request}
    (hr : r.Good (.rooted root)) :
    (r.run (.level n) s).2.Rooted root ∧
      ∀ v, (r.run (.level n) s).1 = .ok v → v.Over (Env.Inside root) := by
  obtain ⟨hstore, hvalue⟩ := (Invariant.kept_rooted root).store_of_run () (fun h => h) hr
    ((Invariant.lawful_rooted root).written r) hs
  exact ⟨hstore, fun v hv => Invariant.value_rooted_iff.1 (hvalue v hv)⟩

/-- In a session the root is as it was at the start, whatever has been run in whichever environment.
-/
theorem Session.rooted {mode : PipeMode} {envs : List Env} {s : Store} (h : Session mode envs s) :
    (∀ env ∈ envs, env.Inside builtinFrame) ∧ s.Rooted builtinFrame := by
  -- a session goes on with a child of an environment, with one that is held, or by a program
  induction h with
  | start =>
    obtain ⟨henv, hstore⟩ := rooted_globalEnv mode
    refine ⟨?_, hstore⟩
    rintro env hmem
    obtain rfl := List.mem_singleton.1 hmem
    exact henv
  | @child envs env s _ hmem ih =>
    obtain ⟨henvs, hstore⟩ := ih
    refine ⟨?_, hstore.addFrame (by rintro _ _ ⟨⟩)⟩
    rintro other hother
    rcases List.mem_cons.1 hother with rfl | hother
    · exact (henvs env hmem).within hstore.nextFrame_ne
    · exact henvs other hother
  | @held envs env s _ hheld ih =>
    obtain ⟨henvs, hstore⟩ := ih
    refine ⟨?_, hstore⟩
    rintro other hother
    rcases List.mem_cons.1 hother with rfl | hother
    · exact hstore.held other hheld
    · exact henvs other hother
  | @run envs env s _ hmem n stmts ih =>
    obtain ⟨henvs, hstore⟩ := ih
    obtain ⟨hafter, hanswer⟩ := hstore.run n (r := .program env stmts) (henvs env hmem)
    refine ⟨?_, hafter⟩
    rintro other hother
    rcases List.mem_append.1 hother with hother | hother
    -- an environment that the answer holds
    · change other ∈ (Request.run (.level n) (.program env stmts) s).1.envs at hother
      cases hrun : (Request.run (.level n) (.program env stmts) s).1 with
      | ok v =>
        rw [hrun] at hother
        exact hanswer v hrun other hother
      | error | outOfFuel =>
        rw [hrun] at hother
        cases hother
    · exact henvs other hother

/-- In every session the root frame binds the builtins and nothing else, it is the root frame of
every environment and none of its other frames, and the qualified names of the builtins refer to
them; so too after the next program, however that ends, and at every entry while it runs. -/
theorem builtins_are_never_rebound {mode : PipeMode} {envs : List Env} {s : Store}
    (h : Session mode envs s) :
    s.bindings builtinFrame = rootBindings ∧
    (∀ env ∈ envs, env.Inside builtinFrame ∧ env.SeesBuiltins s) ∧
    ∀ env ∈ envs, ∀ n stmts,
      ((Evaluator.level n).evalStatements env stmts s).2.bindings builtinFrame =
        s.bindings builtinFrame ∧
      env.SeesBuiltins ((Evaluator.level n).evalStatements env stmts s).2 ∧
      EveryEntry (fun inner _ t => inner.Inside builtinFrame ∧
        t.bindings builtinFrame = rootBindings ∧ inner.SeesBuiltins t) n
        (.program env stmts) s := by
  obtain ⟨henvs, hstore⟩ := h.rooted
  refine ⟨hstore.bindings, fun env hmem => ?_, fun env hmem n stmts => ?_⟩
  · exact ⟨henvs env hmem, hstore.seesBuiltins (henvs env hmem)⟩
  · have henv := henvs env hmem
    have hafter := (hstore.run n (r := .program env stmts) henv).1
    refine ⟨hafter.bindings.trans hstore.bindings.symm, hafter.seesBuiltins henv, ?_⟩
    have hgood : (Request.program env stmts).Good (.rooted builtinFrame) := henv
    refine Invariant.everyEntry_of_store (fun _ : Unit => .rooted builtinFrame) (fun _ => rfl)
      (fun _ => Invariant.lawful_rooted builtinFrame)
      (fun _ _ hagree _ => Invariant.forces_rooted (hagree ())) () (fun h => h) ?_ hgood hstore
    exact fun _ inner e t hinner ht => ⟨hinner, ht.bindings, ht.seesBuiltins hinner⟩

/-- A session that shadows a builtin in the global frame, and an assignment from within it to the
name of another. -/
theorem shadowed_length_is_qualified :
    let env := (globalEnv .lazy).1
    let shadow : Expr := .assign (.sym "length" .nowhere) (.lit (.int 0) .nowhere) .inner .nowhere
    let s := ((Evaluator.level 2).evalStatements env [shadow] (globalEnv .lazy).2).2
    let inner := (s.addChild env []).1
    let reach : Expr := .assign (.sym "sum" .nowhere) (.lit (.int 1) .nowhere) .outer .nowhere
    let t := ((Evaluator.level 2).evalStatements inner [reach] (s.addChild env []).2).2
    (Evaluator.idle.lookup inner "length" t).1 = .ok (.int 0) ∧
    (Evaluator.idle.lookup inner "base::length" t).1 = .ok (.native (.unary .length)) ∧
    (Evaluator.idle.lookup inner "sum" t).1 = .ok (.int 1) ∧
    (Evaluator.idle.lookup inner "base::sum" t).1 = .ok (.native (.unary .sum)) ∧
    t.bindings builtinFrame = rootBindings := by
  intro env shadow s inner reach t
  have hshadowed : Session .lazy _ s := .run .start (List.mem_singleton.2 rfl) 2 [shadow]
  have hinner : Session .lazy _ (s.addChild env []).2 := .child hshadowed (List.mem_singleton.2 rfl)
  have hreached : Session .lazy _ t := .run hinner List.mem_cons_self 2 [reach]
  obtain ⟨hroot, hsees, -⟩ := builtins_are_never_rebound hreached
  have hbuiltin := (hsees inner List.mem_cons_self).2 .idle
  refine ⟨rfl, ?_, rfl, ?_, hroot⟩
  · exact congrArg Prod.fst (hbuiltin.1 (.unary .length))
  · exact congrArg Prod.fst (hbuiltin.1 (.unary .sum))

end PipeLang
