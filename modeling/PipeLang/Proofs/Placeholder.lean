import PipeLang.Program
import PipeLang.Proofs.Frames
import PipeLang.Proofs.Root
import PipeLang.Proofs.StoredCode

/-!
# The placeholder is put back

A chain that is evaluated step by step binds the placeholder in the environment that it is run in,
and puts back at its end what was bound there before, whatever has happened on the way.

In a program that never assigns to the placeholder nothing else binds it in a frame that is there
already.  So every evaluation, seen as a whole, leaves the placeholder bound as before in every
frame (`placeholder_is_put_back`).  The invariant for it, `Invariant.undisturbed`, compares a store
with an earlier one, and there is one for each earlier store: the steps of a chain are compared with
the store in which they begin, and it is only for the chain as a whole that its own frame is as
before.
-/

namespace PipeLang

/-! ### Assignments in expressions -/

mutual

/-- Whether an assignment to the name occurs in the expression. -/
def Expr.assigns (name : String) : Expr → Bool
  | .lit .. | .sym .. | .inline .. => false
  | .call func args _ => func.assigns name || Expr.anyAssigns name args
  | .paren inner _ => inner.assigns name
  | .block stmts _ => Expr.anyAssigns name stmts
  | .list items _ => Expr.anyAssigns name items
  | .record fields _ => Expr.anyFieldAssigns name fields
  | .field target _ _ => target.assigns name
  | .lambda _ body _ => body.assigns name
  | .ifThen cond yes _ => cond.assigns name || yes.assigns name
  | .ifElse cond yes no _ => cond.assigns name || yes.assigns name || no.assigns name
  | .assign target value _ _ => target.isSym name || target.assigns name || value.assigns name

/-- Whether one occurs in some expressions. -/
def Expr.anyAssigns (name : String) : List Expr → Bool
  | [] => false
  | e :: rest => e.assigns name || Expr.anyAssigns name rest

/-- Whether one occurs in some named expressions. -/
def Expr.anyFieldAssigns (name : String) : List (String × Expr) → Bool
  | [] => false
  | (_, e) :: rest => e.assigns name || Expr.anyFieldAssigns name rest

end

namespace Expr

variable {name : String} {e : Expr}

theorem anyAssigns_eq_false_iff {es : List Expr} :
    anyAssigns name es = false ↔ ∀ e ∈ es, e.assigns name = false := by
  induction es with
  | nil => simp [anyAssigns]
  | cons e rest ih => simp [anyAssigns, ih]

theorem anyFieldAssigns_eq_false_iff {fields : List (String × Expr)} :
    anyFieldAssigns name fields = false ↔ ∀ e ∈ fields.map Prod.snd, e.assigns name = false := by
  induction fields with
  | nil => simp [anyFieldAssigns]
  | cons entry rest ih =>
    obtain ⟨key, e⟩ := entry
    rw [anyFieldAssigns, Bool.or_eq_false_iff, ih, List.map_cons, List.forall_mem_cons]

/-- What assigns to a name in a part assigns to it as a whole. -/
theorem assigns_of_mem_parts (h : e.assigns name = false) :
    ∀ part ∈ e.parts, part.assigns name = false := by
  cases e with
  | lit | sym | inline | lambda => simp [parts]
  | paren | field => simpa [parts, assigns] using h
  | block | list => exact anyAssigns_eq_false_iff.1 h
  | record => exact anyFieldAssigns_eq_false_iff.1 h
  | call func args span =>
    rw [assigns, Bool.or_eq_false_iff, anyAssigns_eq_false_iff] at h
    simpa [parts] using h
  | ifThen | ifElse => simp_all [parts, assigns]
  | assign => simp_all [parts, assigns]

/-- An assignment has its own target. -/
theorem ne_of_assigns_eq_false {key : String} {at_ : Span} {value : Expr} {scope : AssignScope}
    {span : Span} (h : (assign (.sym key at_) value scope span).assigns name = false) :
    key ≠ name := by
  rintro rfl
  simp [assigns, isSym] at h

/-- The placeholder is no target of a chain. -/
theorem ne_placeholder_of_targetName (h : e.targetName = .ok name) : name ≠ placeholder := by
  unfold targetName at h
  split at h
  · split at h
    · cases h
    · next hne =>
      cases h
      exact hne
  · cases h

/-! Injecting the placeholder brings no assignment. -/

theorem anyAssigns_withPlaceholder (span : Span) (es : List Expr) :
    anyAssigns name (withPlaceholder span es) = anyAssigns name es := by
  unfold withPlaceholder
  split
  · rfl
  · simp [anyAssigns, assigns]

/-- A placeholder that is added as an argument is read, not assigned to. -/
theorem assigns_asPipeCall (e : Expr) : e.asPipeCall.assigns name = e.assigns name := by
  cases e <;> simp [asPipeCall, addPlaceholder, assigns, anyAssigns_withPlaceholder, anyAssigns]

/-- The placeholder that a step is called on is read, not assigned to. -/
theorem assigns_step (right : Expr) (kind : PipeKind) :
    (kind.step right).assigns name = right.assigns name := by
  cases kind with
  | standard | compound => exact assigns_asPipeCall right
  | tee => simp [PipeKind.step, asTeeCall, assigns, anyAssigns, assigns_asPipeCall]
  | dollar => simp [PipeKind.step, asDollarCall, assigns, anyAssigns]

end Expr

/-! ### Bindings of the placeholder -/

namespace Store

variable {s t u : Store}

/-- A frame that is put back binds the name as it was saved. -/
theorem binding?_rebind_self {frame : FrameId} {name : String} {saved : Option Binding}
    (h : saved.isSome → frame.index < s.frames.size) :
    (s.rebind frame name saved).binding? frame name = saved := by
  cases saved with
  | some b => exact binding?_bind_self s frame name b (h rfl)
  | none =>
    rw [rebind, binding?]
    rcases Nat.lt_or_ge frame.index s.frames.size with hlt | hge
    · rw [bindings_unbind s frame frame name hlt, if_pos rfl, Fields.get?_erase_self]
    · -- a frame that is not there binds nothing
      have hnone : (s.unbind frame name).frames[frame.index]? = none := by
        refine Array.getElem?_eq_none ?_
        rw [size_frames_unbind]
        exact hge
      rw [bindings, hnone]
      rfl

/-- Only one frame is written to. -/
theorem bindings_rebind_of_ne {frame other : FrameId} (hne : other ≠ frame) (s : Store)
    (name : String) (saved : Option Binding) :
    (s.rebind frame name saved).bindings other = s.bindings other := by
  cases saved with
  | some b => exact bindings_bind_of_ne hne s name b
  | none => exact bindings_unbind_of_ne hne s name

theorem size_frames_rebind (s : Store) (frame : FrameId) (name : String) (saved : Option Binding) :
    (s.rebind frame name saved).frames.size = s.frames.size := by
  cases saved with
  | some b => exact size_frames_bind s frame name b
  | none => exact size_frames_unbind s frame name

/-- All frames of `s` are in `t`, and except for some of them they bind the placeholder alike. -/
structure SamePlaceholder (s : Store) (except : List FrameId) (t : Store) : Prop where
  size_le : s.frames.size ≤ t.frames.size
  binding : ∀ frame : FrameId, frame.index < s.frames.size → frame ∉ except →
    t.binding? frame placeholder = s.binding? frame placeholder

namespace SamePlaceholder

variable {except : List FrameId}

theorem refl (s : Store) (except : List FrameId) : s.SamePlaceholder except s :=
  ⟨Nat.le_refl _, fun _ _ _ => rfl⟩

/-- The frames that a first part left out may be left out of the whole, since the second part leaves
out none. -/
theorem trans (hst : s.SamePlaceholder except t) (htu : t.SamePlaceholder [] u) :
    s.SamePlaceholder except u where
  size_le := Nat.le_trans hst.size_le htu.size_le
  binding frame hframe hexcept :=
    (htu.binding frame (Nat.lt_of_lt_of_le hframe hst.size_le) List.not_mem_nil).trans
      (hst.binding frame hframe hexcept)

theorem of_frames_eq (h : s.SamePlaceholder except t) (hframes : u.frames = t.frames) :
    s.SamePlaceholder except u where
  size_le := by rw [hframes]; exact h.size_le
  binding frame hframe hexcept := by
    rw [binding?, bindings, hframes]
    exact h.binding frame hframe hexcept

/-- A write to a frame that is excepted, or not there at the start, or to another name. -/
theorem bind (h : s.SamePlaceholder except t) {frame : FrameId} {name : String}
    (hwrite : name ≠ placeholder ∨ frame ∈ except ∨ s.frames.size ≤ frame.index) (b : Binding) :
    s.SamePlaceholder except (t.bind frame name b) where
  size_le := by
    rw [size_frames_bind]
    exact h.size_le
  binding other hother hexcept := by
    rw [← h.binding other hother hexcept]
    refine binding?_bind_of_ne ?_ t b
    rcases hwrite with hname | hmem | hnew
    · exact .inr hname.symm
    · exact .inl fun heq => hexcept (heq ▸ hmem)
    · exact .inl fun heq => Nat.not_le_of_lt hother (heq ▸ hnew)

/-- A new frame is none of those that were there before. -/
theorem addFrame (h : s.SamePlaceholder except t) (fields : Fields Binding) :
    s.SamePlaceholder except (t.addFrame fields) where
  size_le := by
    rw [Store.addFrame, Array.size_push]
    exact Nat.le_succ_of_le h.size_le
  binding frame hframe hexcept := by
    have hne : frame ≠ t.nextFrame := ne_nextFrame_of_lt (Nat.lt_of_lt_of_le hframe h.size_le)
    rw [binding?, bindings_addFrame_of_ne hne]
    exact h.binding frame hframe hexcept

/-- The frame that was excepted is put back. -/
theorem rebind {frame : FrameId} (h : s.SamePlaceholder [frame] t) :
    s.SamePlaceholder [] (t.rebind frame placeholder (s.binding? frame placeholder)) where
  size_le := by
    rw [size_frames_rebind]
    exact h.size_le
  binding other hother _ := by
    by_cases heq : other = frame
    · subst heq
      exact binding?_rebind_self fun _ => Nat.lt_of_lt_of_le hother h.size_le
    · rw [binding?, bindings_rebind_of_ne heq]
      exact h.binding other hother (by simpa using heq)

end SamePlaceholder

end Store

/-! ### The invariant -/

/-- Evaluations of code that never assigns to the placeholder, from a store on: in the frames of
that store, except for some, the placeholder is bound as it was there. -/
def Invariant.undisturbed (s : Store) (except : List FrameId) : Invariant where
  env _ := True
  store t := t.Runs (fun _ e => e.assigns placeholder = false)
    (fun c => c.body.assigns placeholder = false) ∧ s.SamePlaceholder except t
  mayGiveUp := False
  code _ e := e.assigns placeholder = false
  closure c := c.body.assigns placeholder = false

namespace Invariant

variable {s : Store} {except : List FrameId}

/-- A value is bound to another name. -/
theorem store_bind {t : Store} {frame : FrameId} {name : String} {v : Value}
    (ht : (undisturbed s except).store t) (hname : name ≠ placeholder)
    (hv : (undisturbed s except).value v) :
    (undisturbed s except).store (t.bind frame name (.value v)) := by
  refine ⟨ht.1.bind _ _ ?_, ht.2.bind (.inl hname) _⟩
  rintro w ⟨⟩
  exact hv

/-- Every write but that of an assignment leaves the placeholder of the old frames alone. -/
theorem sound_undisturbed (s : Store) (except : List FrameId) : (undisturbed s except).Sound where
  unnoticed := .id
  within _ _ := trivial
  ofBinding hs h := hs.1.bound h
  ofInline hs h := hs.1.spliced h
  codeWithin _ he := he
  parts he := Expr.assigns_of_mem_parts he
  step he kind := (Expr.assigns_step _ kind).trans he
  spliced _ _ _ _ := rfl
  lambda _ he _ := he
  stepClosure _ he _ := he
  closureEnv _ := trivial
  body _ hc := hc
  assign hs _ he hv := store_bind hs (Expr.ne_of_assigns_eq_false he) hv
  assignOuter hs _ he hv := store_bind hs (Expr.ne_of_assigns_eq_false he) hv
  assignTarget hs _ _ htarget hv := store_bind hs (Expr.ne_placeholder_of_targetName htarget) hv
  addFrame hs h := ⟨hs.1.addFrame fun name v hv => h name (.value v) hv, hs.2.addFrame _⟩
  defer := by
    intro t env params args hs _ hargs
    -- the frame is made before, and was not there at the start
    have hframe : s.frames.size ≤ t.nextFrame.index := hs.2.size_le
    have hadded : (undisturbed s except).store (t.addFrame []) :=
      ⟨hs.1.addFrame (by rintro name v ⟨⟩), hs.2.addFrame []⟩
    refine List.foldlRecOn _ _ hadded fun u hu pair hpair => ?_
    have hwaiting : s.SamePlaceholder except (u.addThunk pair.2 env) := hu.2.of_frames_eq rfl
    exact ⟨hu.1.bindDeferred _ _ (hargs pair.2 (List.of_mem_zip hpair).2),
      hwaiting.bind (.inr (.inr hframe)) _⟩
  addInline hs hv := ⟨hs.1.addInline hv, hs.2.of_frames_eq rfl⟩
  addFunction hs := ⟨hs.1.of_eq rfl rfl rfl, hs.2.of_frames_eq rfl⟩
  print hs := ⟨hs.1.of_eq rfl rfl rfl, hs.2.of_frames_eq rfl⟩

/-- The code of a pending value does not assign to the placeholder either. -/
theorem forces_undisturbed {ev other : Evaluator} (hev : (undisturbed s except).Agree ev other) :
    (undisturbed s except).Forces ev other := by
  refine forces_of_inner rfl (fun _ _ _ hs h => hs.1.forced h) fun t id e env ht hpending _ => ?_
  -- marking a deferred value and taking the mark off leave the frames alone
  have he : e.assigns placeholder = false := ht.1.pending hpending
  refine ⟨undisturbed s except, rfl, fun h => h, hev.eval env trivial e he,
    ⟨ht.1.enter id, ht.2.of_frames_eq rfl⟩, fun r u _ hu => ⟨?_, fun v _ hv => ⟨hv, ?_⟩⟩⟩
  · exact ⟨hu.1.leave id (by rintro _ _ ⟨⟩; exact he) (by rintro _ ⟨⟩), hu.2.of_frames_eq rfl⟩
  · exact ⟨hu.1.leave id (by rintro _ _ ⟨⟩) (by rintro _ ⟨⟩; exact hv), hu.2.of_frames_eq rfl⟩

/-- What leaves the placeholder alone from each store on does so from any store before. -/
theorem Agrees.of_each {α : Type} {good : α → Prop} {x y : Eval α}
    (h : ∀ t, (undisturbed t []).Agrees good x y) : (undisturbed s except).Agrees good x y := by
  intro t ht
  obtain ⟨heq, hu, hgood⟩ := (h t).of_not_mayGiveUp (fun h => h) ⟨ht.1, .refl t []⟩
  exact .inr ⟨heq, ⟨hu.1, ht.2.trans hu.2⟩, hgood⟩

variable {ev other : Evaluator}

/-- The steps of a chain disturb the placeholder in the environment of the chain only. -/
theorem agrees_evalSteps (hev : ∀ s, (undisturbed s []).Agree ev other) (s : Store) (env : Env) :
    ∀ es : List Expr, (∀ e ∈ es, e.assigns placeholder = false) →
      (undisturbed s [env.own]).Agrees (undisturbed s []).value (ev.evalSteps env es)
        (other.evalSteps env es)
  | [], _ => Agrees.fail _
  | [last], hes => Agrees.of_each fun t => (hev t).eval env trivial last (hes last (by simp))
  | e :: next :: rest, hes => by
    have hfirst : (undisturbed s [env.own]).Agrees (undisturbed s []).value (ev.eval env e)
        (other.eval env e) :=
      Agrees.of_each fun t => (hev t).eval env trivial e (hes e (by simp))
    refine Agrees.bind hfirst fun v hv => ?_
    refine Agrees.bind (Agrees.update (fun _ => rfl) fun t ht => ⟨?_, ?_⟩) fun _ _ => ?_
    · exact ht.1.bind _ _ (by rintro w ⟨⟩; exact hv)
    · exact ht.2.bind (.inr (.inl (List.mem_singleton.2 rfl))) _
    · exact agrees_evalSteps hev s env (next :: rest) fun e he => hes e (List.mem_cons_of_mem _ he)

/-- So a whole chain, at the end of which that environment is put back, does not disturb it. -/
theorem chains_undisturbed (hev : ∀ s, (undisturbed s []).Agree ev other) (s : Store) :
    (undisturbed s []).Chains ev other := by
  intro env _ es hes t ht
  obtain ⟨heq, hu, hgood⟩ := (agrees_evalSteps hev t env es hes).of_not_mayGiveUp (fun h => h)
    ⟨ht.1, .refl t _⟩
  refine .inr ⟨evalEager_congr heq, ⟨?_, ht.2.trans hu.2.rebind⟩, hgood⟩
  -- what is put back was bound in the store at the start
  exact hu.1.rebind env.own placeholder fun v hv => ht.1.bound hv

theorem kept_undisturbed : Kept fun s => undisturbed s [] where
  view _ := rfl
  sound s := sound_undisturbed s []
  forces _ _ hev s := forces_undisturbed (hev s)
  chains _ _ hev s := chains_undisturbed hev s

end Invariant

/-! ### Chains and programs -/

/-- A chain that is evaluated step by step leaves the placeholder bound as it was. -/
theorem Evaluator.ownBinding?_evalEager (n : Nat) (env : Env) (es : List Expr) (s : Store) :
    ((level n).evalEager env es s).2.ownBinding? env placeholder =
      s.ownBinding? env placeholder := by
  refine Store.binding?_rebind_self fun hsaved => ?_
  refine Nat.lt_of_lt_of_le ?_ (size_frames_le_evalSteps n env es s)
  -- a frame that binds anything is there
  refine Nat.lt_of_not_le fun hle => ?_
  have hnone : s.frames[env.own.index]? = none := Array.getElem?_eq_none hle
  simp [Store.ownBinding?, Store.binding?, Store.bindings, hnone, Fields.get?] at hsaved

/-- In a store without code that assigns to the placeholder, every evaluation of an expression on
the way leaves the placeholder bound as before, in each frame that is there before. -/
theorem Store.Runs.everyEntry {s : Store} (hs : s.Runs (fun _ e => e.assigns placeholder = false)
    fun c => c.body.assigns placeholder = false) {env : Env} {stmts : List Expr}
    (hstmts : ∀ e ∈ stmts, e.assigns placeholder = false) (n : Nat) :
    EveryEntry (fun inner e t => ∀ m, ∀ frame : FrameId, frame.index < t.frames.size →
      ((Evaluator.level m).eval inner e t).2.binding? frame placeholder =
        t.binding? frame placeholder) n (.program env stmts) s := by
  have hgood : (Request.program env stmts).Good (.undisturbed s []) := trivial
  refine Invariant.kept_undisturbed.everyEntry s (fun h => h) ?_ hgood hstmts ⟨hs, .refl s []⟩
  intro _ inner e t _ he ht m frame hframe
  obtain ⟨hafter, -⟩ := Invariant.kept_undisturbed.store_of_run t (fun h => h) (n := m)
    (r := .eval inner e) trivial he ⟨ht.1, .refl t []⟩
  exact hafter.2.binding frame hframe List.not_mem_nil

/-- In a fresh environment there is no code yet. -/
theorem runs_globalEnv (mode : PipeMode) (code : Env → Expr → Prop) (closure : Closure → Prop) :
    (globalEnv mode).2.Runs code closure := by
  have hroot : (Store.empty.addFrame rootBindings).Runs code closure := by
    refine Store.Runs.empty.addFrame fun name v hv => Value.runs_of_closures_eq_nil ?_
    have henvs : v.envs = [] := value_of_mem_rootBindings hv
    rw [Value.envs_eq_map, List.map_eq_nil_iff] at henvs
    exact henvs
  exact hroot.addFrame (by rintro name v ⟨⟩)

/-- A chain that is evaluated step by step leaves the own binding of the placeholder in its
environment as it was, whatever its expressions do and however it ends.  And while a program runs
in which no assignment has the placeholder as its target, in whatever mode, every evaluation of an
expression leaves the placeholder bound as before in each frame that is there before it. -/
theorem placeholder_is_put_back :
    (∀ n env es s, ((Evaluator.level n).evalEager env es s).2.ownBinding? env placeholder =
      s.ownBinding? env placeholder) ∧
    ∀ mode stmts, (∀ e ∈ stmts, e.assigns placeholder = false) → ∀ n,
      EveryEntry (fun env e s => ∀ m, ∀ frame : FrameId, frame.index < s.frames.size →
        ((Evaluator.level m).eval env e s).2.binding? frame placeholder =
          s.binding? frame placeholder) n (.program (globalEnv mode).1 stmts) (globalEnv mode).2 :=
  ⟨Evaluator.ownBinding?_evalEager, fun mode _ hstmts n =>
    (runs_globalEnv mode _ _).everyEntry hstmts n⟩

/-- A chain within a step of another chain: both bind the placeholder of the global frame, which
is unbound again at the end. -/
theorem put_back_after_nested_chains :
    let dot : Expr := .sym placeholder .nowhere
    let number (n : Int64) : Expr := .lit (.int n) .nowhere
    let eager (left right : Expr) : Expr := .call (.sym "%!>%" .nowhere) [left, right] .nowhere
    let inner : Expr := eager (number 2) (.call (.sym "identity" .nowhere) [dot] .nowhere)
    let outer : Expr := eager (number 1) (.block [.list [dot, inner] .nowhere] .nowhere)
    let env : Env := (globalEnv .auto).1
    let s : Store := (globalEnv .auto).2
    ((Evaluator.level 8).evalStatements env [outer] s).1 = .ok (.list [.int 1, .int 2]) ∧
    ((Evaluator.level 8).evalEager env [number 1, outer] s).2.ownBinding? env placeholder = none ∧
    EveryEntry (fun env e s => ∀ m, ∀ frame : FrameId, frame.index < s.frames.size →
      ((Evaluator.level m).eval env e s).2.binding? frame placeholder =
        s.binding? frame placeholder) 8 (.program env [outer]) s := by
  intro dot number eager inner outer env s
  obtain ⟨hchain, hprogram⟩ := placeholder_is_put_back
  refine ⟨rfl, (hchain 8 env [number 1, outer] s).trans rfl, hprogram .auto [outer] ?_ 8⟩
  exact List.forall_mem_singleton.2 rfl

end PipeLang
