import PipeLang.Proofs.Compound
import PipeLang.Proofs.Injection
import PipeLang.Proofs.Nesting
import PipeLang.Proofs.Placeholder
import PipeLang.Proofs.Simulation

/-!
# Scope injection is substitution

To evaluate a first-order expression among the fields of a record is to evaluate it with the values
of the fields in the places of their names, by `with` and, unless the expression asks for the
placeholder, by a dollar pipe (`scope_injection_is_substitution`).

Both come to a call of `with` on something that has the record for its value: the data themselves,
or the placeholder, which is bound to the record step by step and deferred to the data on demand.
What the three have in common is that they present the value in a scope which binds all names as
before (`Presents`).
-/

namespace PipeLang

/-- The frames of the first store bind each name in the second one as before. -/
def Store.KeepsBindings (s t : Store) : Prop :=
  ∀ (frame : FrameId) (name : String), frame.index < s.frames.size →
    t.binding? frame name = s.binding? frame name

namespace Store

variable {s t : Store} {frame : FrameId} {name : String}

/-- The dollar pipe finds `with` in the root frame, whatever the other frames bind. -/
theorem resolve_scopeName {env : Env}
    (h : s.binding? env.rootFrame "with" = some (.value (.special .within))) :
    s.resolve env Expr.scopeName = .ok (.value (.special .within)) := by
  have hwith : unqualified? Expr.scopeName = some "with" := rfl
  unfold resolve
  rw [hwith]
  dsimp only
  rw [h]
  rfl

theorem Grows.keepsBindings (h : s.Grows t) : s.KeepsBindings t := by
  intro frame name hframe
  rw [binding?, h.bindings hframe, binding?]

theorem binding?_rebind_of_ne {other : FrameId} {key : String}
    (hne : other ≠ frame ∨ key ≠ name) (saved : Option Binding) :
    (s.rebind frame name saved).binding? other key = s.binding? other key := by
  cases saved with
  | some b => exact binding?_bind_of_ne hne s b
  | none =>
    rw [rebind, binding?_unbind, if_neg (not_and_or.2 hne)]

/-- A name that is bound for a while and then put back. -/
theorem keepsBindings_rebind {b : Binding} (h : (s.bind frame name b).Grows t)
    (hframe : frame.index < s.frames.size) :
    s.KeepsBindings (t.rebind frame name (s.binding? frame name)) := by
  have hsize : frame.index < t.frames.size := by
    refine Nat.lt_of_lt_of_le hframe ?_
    rw [← size_frames_bind s frame name b]
    exact h.size_le
  intro other key hother
  by_cases hsame : other = frame ∧ key = name
  · obtain ⟨rfl, rfl⟩ := hsame
    exact binding?_rebind_self fun _ => hsize
  · have hne : other ≠ frame ∨ key ≠ name := not_and_or.1 hsame
    have hother' : other.index < (s.bind frame name b).frames.size := by
      rw [size_frames_bind]
      exact hother
    rw [binding?_rebind_of_ne hne, h.keepsBindings other key hother', binding?_bind_of_ne hne]

end Store

/-! ### A value presented in a scope -/

namespace Evaluator

variable {ev : Evaluator} {env : Env} {left right : Expr} {s u : Store} {v : Value}
  {r : Fields Value}

/-- The fields of a record as values of names. -/
def scopeOf (r : Fields Value) : Fields Binding := r.map fun (k, v) => (k, .value v)

theorem get?_scopeOf (r : Fields Value) (name : String) :
    (scopeOf r).get? name = (r.get? name).map .value := by
  induction r with
  | nil => rfl
  | cons field rest ih =>
    obtain ⟨key, v⟩ := field
    rw [Fields.get?]
    by_cases hkey : key = name
    · rw [if_pos hkey]
      exact if_pos hkey
    · rw [if_neg hkey]
      exact (if_neg hkey).trans ih

theorem applySpecial_within_of_record (h : ev.eval env left s = (.ok (.record r), u)) :
    ev.applySpecial env .within [left, right] s =
      ev.eval (env.within u.nextFrame) right (u.addFrame (scopeOf r)) :=
  Eval.bind_of_ok h

/-- Nothing more is evaluated if there is no record. -/
theorem applySpecial_within_of_ne (h : ev.eval env left s = (.ok v, u))
    (hv : ∀ r, v ≠ .record r) : ev.applySpecial env .within [left, right] s =
      (.error (.type (.expected .record v.kind)), u) := by
  refine (Eval.bind_of_ok h).trans ?_
  cases v with
  | record r => exact absurd rfl (hv r)
  | _ => rfl

end Evaluator

/-- In a scope the callee is `with`, and its first argument has a value after which these names are
bound as in an earlier environment. -/
structure Presents (s : Store) (env : Env) (names : String → Prop) (m : Nat) (callee left : Expr)
    (v : Value) (scope : Env) (begun reached : Store) : Prop where
  callee : (Evaluator.level m).eval scope callee begun = (.ok (.special .within), begun)
  left : (Evaluator.level m).eval scope left begun = (.ok v, reached)
  frames : reached.HasFrames scope
  find : ∀ {name}, names name → reached.find? scope name = s.find? env name

namespace Presents

variable {s begun reached : Store} {env scope : Env} {names : String → Prop} {m : Nat}
  {callee left e : Expr} {v : Value} {r : Fields Value}

/-- The scope of the record within such a scope, next to the earlier environment with nodes for the
fields. -/
theorem places (h : Presents s env names m callee left v scope begun reached)
    (henv : s.HasFrames env) (r : Fields Value) {nodes : Fields Expr} {t : Store}
    (hframes : t.frames = s.frames) (hnone : ∀ name, r.get? name = none → nodes.get? name = none)
    (hsome : ∀ name v, r.get? name = some v → ∃ label ref span,
      nodes.get? name = some (.inline label ref span) ∧ t.inline? ref = some v) :
    Injectable.Places s env r names (scope.within reached.nextFrame)
      (reached.addFrame (Evaluator.scopeOf r)) nodes env t := by
  have hgrows := reached.grows_addFrame (Evaluator.scopeOf r)
  have hown : ∀ name, (reached.addFrame (Evaluator.scopeOf r)).binding? reached.nextFrame name =
      (r.get? name).map .value := by
    intro name
    rw [Store.binding?, Store.bindings_addFrame_nextFrame, Evaluator.get?_scopeOf]
  constructor
  case key =>
    intro name v _ hkey
    refine ⟨Store.find?_of_own ((hown name).trans ?_), hsome name v hkey⟩
    rw [hkey, Option.map_some]
  case name =>
    intro name v hname hnokey hbound
    -- the frame of the record does not bind the name, so that it is looked up behind it
    have hskip := hown name
    rw [hnokey, Option.map_none] at hskip
    refine ⟨?_, hnone name hnokey, ?_⟩
    · rw [Store.find?_within_of_none hskip, hgrows.find?_eq h.frames, h.find hname, hbound]
    · rw [((Store.Grows.refl s).of_frames_eq hframes).find?_eq henv, hbound]

theorem eval_of_record (h : Presents s env names m callee left (.record r) scope begun reached)
    (henv : s.HasFrames env) (he : Injectable s env r e)
    (hnames : ∀ name, e.mentions name → names name) (span : Span) :
    (Evaluator.level (m + 1)).eval scope (.call callee [left, e] span) begun =
      (((Evaluator.level m).evalInjected env r e s).1,
        reached.addFrame (Evaluator.scopeOf r)) := by
  obtain ⟨nodes, t, hsplice, hframes, -, hnone, hsome⟩ := Eval.exists_spliceFields r s
  obtain ⟨x, hinner, houter⟩ := he.together (h.places henv r hframes hnone hsome) hnames m
  have hinjected : (Evaluator.level m).evalInjected env r e s = (x, t) :=
    (Eval.bind_of_ok hsplice).trans houter
  rw [hinjected, ← hinner, ← Evaluator.applySpecial_within_of_record h.left]
  exact Eval.bind_of_ok h.callee

theorem eval_of_ne (h : Presents s env names m callee left v scope begun reached)
    (hv : ∀ r, v ≠ .record r) (e : Expr) (span : Span) :
    (Evaluator.level (m + 1)).eval scope (.call callee [left, e] span) begun =
      (.error (.type (.expected .record v.kind)), reached) :=
  (Eval.bind_of_ok h.callee).trans (Evaluator.applySpecial_within_of_ne h.left hv)

end Presents

/-! ### Three ways to present the data -/

section

variable {s u : Store} {env : Env} {data : Expr} {v : Value} {n m : Nat}

/-- First-order data have their value wherever the names are bound in the same way. -/
theorem Injectable.eval_of_ok (hdata : Injectable s env [] data)
    (hv : ((Evaluator.level n).eval env data s).1 = .ok v) (hle : n ≤ m)
    (hfind : ∀ name, u.find? env name = s.find? env name) :
    (Evaluator.level m).eval env data u = (.ok v, u) := by
  have hplaces : Injectable.Places s env [] (fun _ => True) env s [] env u :=
    ⟨fun _ hkey => (nomatch hkey), fun _ _ hbound => ⟨hbound, rfl, (hfind _).trans hbound⟩⟩
  obtain ⟨x, hs, hu⟩ := hdata.together hplaces (fun _ _ => trivial) m
  have hends : ((Request.eval env data).run (.level n) s).1 ≠ .outOfFuel := by
    rw [Request.run, hv]
    rintro ⟨⟩
  have hx : x = .ok v := by
    rw [← hv]
    exact (congrArg Prod.fst hs).symm.trans (congrArg Prod.fst (Request.run_mono hle _ hends))
  rw [Expr.inject_nil, hx] at hu
  exact hu

/-- A call of `with` on the data. -/
theorem presents_data (henv : s.HasFrames env) (hdata : Injectable s env [] data)
    (hv : ((Evaluator.level n).eval env data s).1 = .ok v) (hm : n < m) {f : String}
    (hf : s.resolve env f = .ok (.value (.special .within))) (at_ : Span) :
    Presents s env (fun _ => True) m (.sym f at_) data v env s s := by
  obtain ⟨k, rfl⟩ : ∃ k, m = k + 1 := ⟨m - 1, by omega⟩
  exact ⟨(Evaluator.level k).lookup_of_value hf,
    hdata.eval_of_ok hv (Nat.le_of_lt hm) fun _ => rfl, henv, fun _ => rfl⟩

/-- The dollar operator is itself, the root frame has `with`, and the data can stand before the
operator as the head of a chain and be deferred. -/
structure TakesDollar (s : Store) (env : Env) (data : Expr) : Prop where
  operator : s.resolve env PipeOp.dollar.name = .ok (.value (.special (.pipe .dollar)))
  within : s.binding? env.rootFrame "with" = some (.value (.special .within))
  head : data.isPlaceholder = false
  single : data.pipeKind? = none
  depth : s.depth < depthLimit

namespace TakesDollar

/-- A dollar pipe is a chain of two steps. -/
theorem eval_eq (h : TakesDollar s env data) (m : Nat) (e : Expr) (at_ span : Span) :
    (Evaluator.level (m + 2)).eval env (data.pipedInto ⟨.dollar, at_, e, span⟩) s =
      (Evaluator.level (m + 1)).evalChain env true [data, e.asDollarCall] s := by
  let p : Pipe := ⟨.dollar, at_, e, span⟩
  have hchain : (Evaluator.level (m + 1)).pipe env (some p.op.kind) p.op.isLazy (data.piped [])
      p.right = (Evaluator.level (m + 1)).evalChain env true [data, e.asDollarCall] :=
    Evaluator.pipe_of_no_compound _ (by simp [h.head]) h.single rfl rfl
  exact (Evaluator.eval_piped_append h.operator m).trans (congrFun hchain s)

/-- Step by step, the placeholder is bound to the value in the environment itself. -/
theorem presents_step (h : TakesDollar s env data) (henv : s.HasFrames env) (hm : 0 < m)
    (at_ : Span) :
    Presents s env (· ≠ placeholder) m (.sym Expr.scopeName at_) (.sym placeholder at_) v env
      (s.define env placeholder v) (s.define env placeholder v) := by
  obtain ⟨k, rfl⟩ : ∃ k, m = k + 1 := ⟨m - 1, by omega⟩
  have hroot : (s.define env placeholder v).binding? env.rootFrame "with" =
      some (.value (.special .within)) := by
    rw [Store.define, Store.binding?_bind_of_ne (.inr (by decide)), h.within]
  refine ⟨(Evaluator.level k).lookup_of_value (Store.resolve_scopeName hroot),
    (Evaluator.level k).lookup_of_find? rfl
      (Store.find?_define_self (henv _ List.mem_cons_self) v), fun frame hframe => ?_,
    fun {name} hname => Store.find?_define_of_ne hname s env v⟩
  rw [Store.define, Store.size_frames_bind]
  exact henv frame hframe

/-- On demand, the placeholder is bound to the data in an environment of its own, and becomes their
value when `with` asks for it. -/
theorem presents_stage (h : TakesDollar s env data) (henv : s.HasFrames env)
    (hdata : Injectable s env [] data)
    (hv : ((Evaluator.level n).eval env data s).1 = .ok v) (hm : n < m) (at_ : Span) :
    let begun := s.addDeferred placeholder data env
    Presents s env (· ≠ placeholder) m (.sym Expr.scopeName at_) (.sym placeholder at_) v
      (env.within s.nextFrame) begun ((begun.enter s.nextThunk).leave s.nextThunk (.forced v)) := by
  intro begun
  obtain ⟨k, rfl⟩ : ∃ k, m = k + 1 := ⟨m - 1, by omega⟩
  have hgrows : s.Grows begun := s.grows_addDeferred placeholder data env
  have hframe : begun.bindings s.nextFrame = [(placeholder, .deferred s.nextThunk)] :=
    s.bindings_addDeferred placeholder data env
  have hroot : begun.binding? (env.within s.nextFrame).rootFrame "with" =
      some (.value (.special .within)) := by
    rw [Env.rootFrame_within, Store.binding?, hgrows.bindings henv.rootFrame]
    exact h.within
  have hplaceholder : begun.resolve (env.within s.nextFrame) placeholder =
      .ok (.deferred s.nextThunk) :=
    Store.resolve_of_find? rfl (Store.find?_within_self hframe)
  -- the data is evaluated at the first demand, in a store whose names are the same
  have hforced : (Evaluator.level k).force s.nextThunk begun =
      (.ok v, (begun.enter s.nextThunk).leave s.nextThunk (.forced v)) := by
    have hvalue : (Evaluator.level k).eval env data (begun.enter s.nextThunk) =
        (.ok v, begun.enter s.nextThunk) :=
      hdata.eval_of_ok hv (by omega) fun name => hgrows.find?_eq henv name
    rw [Evaluator.force_of_pending _ (s.thunk?_addDeferred_self placeholder data env) h.depth,
      hvalue]
  refine ⟨(Evaluator.level k).lookup_of_value (Store.resolve_scopeName hroot),
    ((Evaluator.level k).lookup_of_resolve hplaceholder).trans hforced,
    henv.within hgrows (s.lt_size_addDeferred placeholder data env), fun {name} hname => ?_⟩
  exact (Store.find?_within_of_ne hframe hname).trans (hgrows.find?_eq henv name)

/-- In either way the pipe is a call of `with` on the placeholder, in a scope that presents the
data, after which some bindings may be put back. -/
theorem exists_presents (h : TakesDollar s env data) (henv : s.HasFrames env)
    (hdata : Injectable s env [] data)
    (hv : ((Evaluator.level n).eval env data s).1 = .ok v) (hm : n < m) :
    ∃ scope begun reached, ∃ close : Store → Store,
      (∀ at_, Presents s env (· ≠ placeholder) m (.sym Expr.scopeName at_) (.sym placeholder at_) v
        scope begun reached) ∧
      (∀ t, reached.Grows t → s.KeepsBindings (close t)) ∧
      ∀ e at_ span, (Evaluator.level (m + 2)).eval env (data.pipedInto ⟨.dollar, at_, e, span⟩) s =
        let (x, t) := (Evaluator.level (m + 1)).eval scope e.asDollarCall begun
        (x, close t) := by
  -- on demand the data is a stage, step by step it is the first value
  by_cases hlazy : env.mode.isLazy true
  · have hgrows := s.grows_addDeferred placeholder data env
    refine ⟨_, _, _, id, h.presents_stage henv hdata hv hm, fun t ht => ?_, fun e at_ span => ?_⟩
    · refine Store.Grows.keepsBindings (Store.Grows.trans ?_ ht)
      exact hgrows.of_frames_eq rfl
    · rw [h.eval_eq, Evaluator.evalChain, if_pos hlazy]
      rfl
  · refine ⟨_, _, _, fun t => t.rebind env.own placeholder (s.ownBinding? env placeholder),
      h.presents_step henv (by omega), fun t ht => ?_, fun e at_ span => ?_⟩
    · exact Store.keepsBindings_rebind ht (henv _ List.mem_cons_self)
    · have hdone := hdata.eval_of_ok hv (Nat.le_succ_of_le (Nat.le_of_lt hm)) fun _ => rfl
      rw [h.eval_eq, Evaluator.evalChain, if_neg hlazy, Evaluator.evalEager,
        Eval.bind_of_ok (Eval.read_apply _ _), Eval.ensuring_apply, Evaluator.evalSteps_of_ok hdone]
      rfl

end TakesDollar

/-! ### Substitution -/

/-- From any store and in any environment with the frames of the store, for first-order data with
some value: if it is a record, then a call of `with` on the data and a first-order expression gives
the same value, or fails with the same error, as the expression with the values of the fields in the
places of their names, and leaves all frames that there were as they were; and so does a dollar pipe
between the two, step by step and on demand, if the expression does not mention the placeholder.
If the value is no record, both fail with the same type error, after the same steps for every
expression, whether it is first-order or not. -/
theorem scope_injection_is_substitution (henv : s.HasFrames env) (hdata : Injectable s env [] data)
    (hv : ((Evaluator.level n).eval env data s).1 = .ok v) (hm : n < m) :
    let asCall (f : String) (e : Expr) (at_ span : Span) :=
      (Evaluator.level (m + 1)).eval env (.call (.sym f at_) [data, e] span) s
    let asPipe (e : Expr) (at_ span : Span) :=
      (Evaluator.level (m + 2)).eval env (data.pipedInto ⟨.dollar, at_, e, span⟩) s
    let isWithin (f : String) := s.resolve env f = .ok (.value (.special .within))
    (∀ r, v = .record r → ∀ e, Injectable s env r e →
      let x := ((Evaluator.level m).evalInjected env r e s).1
      (∀ f at_ span, isWithin f → ∃ t, asCall f e at_ span = (x, t) ∧ s.KeepsBindings t) ∧
      (TakesDollar s env data → e.mentions placeholder = false →
        ∀ at_ span, ∃ t, asPipe e at_ span = (x, t) ∧ s.KeepsBindings t)) ∧
    ((∀ r, v ≠ .record r) →
      let failed : Outcome EvalError Value := .error (.type (.expected .record v.kind))
      (∀ f at_, isWithin f → ∃ t, s.KeepsBindings t ∧ ∀ e span, asCall f e at_ span = (failed, t)) ∧
      (TakesDollar s env data →
        ∃ t, s.KeepsBindings t ∧ ∀ e at_ span, asPipe e at_ span = (failed, t))) := by
  intro asCall asPipe isWithin
  refine ⟨?_, fun hne => ⟨fun f at_ hf => ?_, fun hdollar => ?_⟩⟩
  · rintro r rfl e he x
    refine ⟨fun f at_ span hf => ?_, fun hdollar hmentions at_ span => ?_⟩
    · have hpresents := presents_data henv hdata hv hm hf at_
      exact ⟨_, hpresents.eval_of_record henv he (fun _ _ => trivial) span,
        (s.grows_addFrame (Evaluator.scopeOf r)).keepsBindings⟩
    -- a pipe presents the data under the placeholder, which the expression then must not mention
    · obtain ⟨scope, begun, reached, close, hpresents, hclose, heval⟩ :=
        hdollar.exists_presents henv hdata hv hm
      have hnames : ∀ name, e.mentions name → name ≠ placeholder := by
        rintro name hname rfl
        exact Bool.false_ne_true (hmentions.symm.trans hname)
      refine ⟨_, ?_, hclose _ (reached.grows_addFrame (Evaluator.scopeOf r))⟩
      refine (heval e at_ span).trans ?_
      rw [Expr.asDollarCall, (hpresents e.span).eval_of_record henv he hnames]
  · have hpresents := presents_data henv hdata hv hm hf at_
    exact ⟨s, (Store.Grows.refl s).keepsBindings, fun e span => hpresents.eval_of_ne hne e span⟩
  · obtain ⟨scope, begun, reached, close, hpresents, hclose, heval⟩ :=
      hdollar.exists_presents henv hdata hv hm
    refine ⟨close reached, hclose _ (.refl reached), fun e at_ span => (heval e at_ span).trans ?_⟩
    rw [Expr.asDollarCall, (hpresents e.span).eval_of_ne hne]

end

/-- With 2 for the name `k`, the record `{ a: 1 }` makes `[1, 2]` of `[a, k]`, and 2 is no record
for any expression. -/
theorem record_among_names :
    let env : Env := ⟨⟨1⟩, [⟨0⟩], .auto⟩
    let s := (Store.empty.addFrame
      [("%$%", .value (.special (.pipe .dollar))), ("with", .value (.special .within))]).addFrame
      [("k", .value (.int 2))]
    let name (key : String) : Expr := .sym key .nowhere
    let data : Expr := .record [("a", .lit (.int 1) .nowhere)] .nowhere
    let both : Outcome EvalError Value := .ok (.list [.int 1, .int 2])
    let failed : Outcome EvalError Value := .error (.type (.expected .record .int))
    (∃ t, (Evaluator.level 4).eval env
      (.call (name "with") [data, .list [name "a", name "k"] .nowhere] .nowhere) s = (both, t) ∧
        s.KeepsBindings t) ∧
    (∃ t, (Evaluator.level 5).eval env
      (data.pipedInto ⟨.dollar, .nowhere, .list [name "a", name "k"] .nowhere, .nowhere⟩) s =
        (both, t) ∧ s.KeepsBindings t) ∧
    ∃ t, s.KeepsBindings t ∧ ∀ e, (Evaluator.level 4).eval env
      ((name "k").pipedInto ⟨.dollar, .nowhere, e, .nowhere⟩) s = (failed, t) := by
  intro env s name data both failed
  have henv : s.HasFrames env := by decide
  have hk : s.find? env "k" = some (.value (.int 2)) := rfl
  have hone : ∀ {r}, Injectable s env r (.lit (.int 1) .nowhere) := .lit _ _
  have hdata : Injectable s env [] data :=
    .record (List.forall_mem_singleton.2 hone) .nowhere
  have he : Injectable s env [("a", .int 1)] (.list [name "a", name "k"] .nowhere) := by
    refine .list (List.forall_mem_cons.2 ⟨.key rfl rfl _, List.forall_mem_singleton.2 ?_⟩) _
    exact .name rfl rfl hk _
  obtain ⟨hrecord, -⟩ :=
    scope_injection_is_substitution (n := 2) (m := 3) henv hdata rfl (by decide)
  obtain ⟨hcall, hpipe⟩ := hrecord [("a", .int 1)] rfl _ he
  have hkname : Injectable s env [] (name "k") := .name rfl rfl hk _
  obtain ⟨-, hother⟩ :=
    scope_injection_is_substitution (n := 1) (m := 2) henv hkname rfl (by decide)
  obtain ⟨-, hfails⟩ := hother (by rintro _ ⟨⟩)
  refine ⟨hcall "with" _ _ rfl, hpipe ⟨rfl, rfl, rfl, rfl, by decide⟩ (by decide) _ _, ?_⟩
  obtain ⟨t, hkept, hall⟩ := hfails ⟨rfl, rfl, rfl, rfl, by decide⟩
  exact ⟨t, hkept, fun e => hall e _ _⟩

/-- If the name of the standard pipe operator is bound to a builtin function, then a call of it is
first-order and can have a record for its value, but to the left of a dollar pipe it is a part of
the chain all the same, and the chain is another one. -/
theorem data_in_a_chain_are_no_head :
    let env : Env := ⟨⟨1⟩, [⟨0⟩], .auto⟩
    let s := (Store.empty.addFrame
      [("%$%", .value (.special (.pipe .dollar))), ("with", .value (.special .within))]).addFrame
      [("%>%", .value (.native (.binary .nth)))]
    let a : Expr := .sym "a" .nowhere
    let items : Expr := .list [.record [("a", .lit (.int 5) .nowhere)] .nowhere] .nowhere
    let data := items.pipedInto ⟨.standard, .nowhere, .lit (.int 1) .nowhere, .nowhere⟩
    let fields : Fields Value := [("a", .int 5)]
    let ev := Evaluator.level 8
    Injectable s env [] data ∧ (ev.eval env data s).1 = .ok (.record fields) ∧
    Injectable s env fields a ∧ a.mentions placeholder = false ∧
    (ev.evalInjected env fields a s).1 = .ok (.int 5) ∧
    (ev.eval env (.call (.sym "with" .nowhere) [data, a] .nowhere) s).1 = .ok (.int 5) ∧
    (ev.eval env (data.pipedInto ⟨.dollar, .nowhere, a, .nowhere⟩) s).1 =
      .error (.notFunction "1") := by
  have hprint : (Expr.lit (.int 1) .nowhere).print = "1" := by decide +kernel
  rw [← hprint]
  refine ⟨.call rfl rfl rfl (by decide) ?_ _ _, rfl, .key rfl rfl _, by decide, rfl, rfl, rfl⟩
  refine List.forall_mem_cons.2 ⟨?_, List.forall_mem_singleton.2 (.lit _ _)⟩
  refine .list (List.forall_mem_singleton.2 ?_) _
  exact .record (List.forall_mem_singleton.2 (.lit _ _)) _

end PipeLang
