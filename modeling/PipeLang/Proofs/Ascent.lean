import PipeLang.Proofs.Following
import PipeLang.Proofs.Held
import PipeLang.Proofs.Stages

/-!
# Stages in two runs

On demand the last step of a chain comes first, and each step leads to the one before it when it
asks for the placeholder, back to the head.  So when the head is evaluated, the deferred values of
all stages are being evaluated (`Store.addDemands`), and on the way back each of them gets its
value.

Two chains that go on with the same first-order steps are compared from the bottom up.  An
`Ascent` says how far one has got: in these two environments the placeholder is followed by itself
in the other run, from the stores in which it is demanded for the first time, and later ones.  It
begins with the stages of a common head (`Ascent.of_head`).  One more stage in each run leads to the
next such pair of environments (`Ascent.rung`, `Ascent.next`), and so do several (`Ascent.stages`).
-/

namespace PipeLang

open Eval

namespace Store

variable {s t : Store} {env : Env}

/-! ### Demands that have begun -/

/-- Make a stage whose deferred value is being evaluated. -/
def addDemand (s : Store) : Store :=
  { s with
    frames := s.frames.push [(placeholder, .deferred s.nextThunk)]
    thunks := s.thunks.push .evaluating
    depth := s.depth + 1 }

/-- Make so many of them, one within the other. -/
def addDemands (s : Store) : Nat → Store
  | 0 => s
  | count + 1 => s.addDemand.addDemands count

theorem addDemands_add (s : Store) (m n : Nat) :
    s.addDemands (m + n) = (s.addDemands m).addDemands n := by
  induction m generalizing s with
  | zero => rw [Nat.zero_add]; rfl
  | succ m ih =>
    rw [Nat.succ_add]
    exact ih s.addDemand

theorem sizes_addDemands (s : Store) (count : Nat) :
    (s.addDemands count).frames.size = s.frames.size + count ∧
      (s.addDemands count).thunks.size = s.thunks.size + count := by
  induction count generalizing s with
  | zero => exact ⟨rfl, rfl⟩
  | succ count ih =>
    obtain ⟨hframes, hthunks⟩ := ih s.addDemand
    rw [addDemand, Array.size_push] at hframes hthunks
    exact ⟨hframes.trans (by omega), hthunks.trans (by omega)⟩

theorem grows_addDemands (s : Store) (count : Nat) : s.Grows (s.addDemands count) := by
  induction count generalizing s with
  | zero => exact .refl s
  | succ count ih =>
    have hadded := (s.grows_addFrame [(placeholder, .deferred s.nextThunk)])
    exact (hadded.of_frames_eq (u := s.addDemand) rfl).trans (ih s.addDemand)

theorem thunk?_addDemands {id : ThunkId} (h : id.index < s.thunks.size) (count : Nat) :
    (s.addDemands count).thunk? id = s.thunk? id := by
  induction count generalizing s with
  | zero => rfl
  | succ count ih =>
    have hlt : id.index < s.addDemand.thunks.size := by
      rw [addDemand, Array.size_push]
      exact Nat.lt_succ_of_lt h
    refine (ih hlt).trans ?_
    rw [thunk?, addDemand, Array.getElem?_push, if_neg (Nat.ne_of_lt h), thunk?]

/-- The frames of these stages bind the placeholder alone. -/
theorem bindings_addDemands {count i : Nat} (hi : i < count) (s : Store) :
    (s.addDemands count).bindings ⟨s.frames.size + i⟩ =
      [(placeholder, .deferred ⟨s.thunks.size + i⟩)] := by
  induction count generalizing s i with
  | zero => omega
  | succ count ih =>
    have hframes : s.addDemand.frames.size = s.frames.size + 1 := Array.size_push _
    have hthunks : s.addDemand.thunks.size = s.thunks.size + 1 := Array.size_push _
    cases i with
    | zero =>
      have hlt : s.frames.size < s.addDemand.frames.size := by omega
      refine ((s.addDemand.grows_addDemands count).bindings hlt).trans ?_
      exact s.bindings_addFrame_nextFrame [(placeholder, .deferred s.nextThunk)]
    | succ i =>
      have hnext := ih (Nat.lt_of_succ_lt_succ hi) s.addDemand
      rw [hframes, hthunks, Nat.add_right_comm, Nat.add_right_comm _ 1] at hnext
      exact hnext

/-- The deferred values are evaluating or were there before. -/
theorem thunk?_of_addDemands {count : Nat} {id : ThunkId} {x : Thunk}
    (h : (s.addDemands count).thunk? id = some x) : x = .evaluating ∨ s.thunk? id = some x := by
  induction count generalizing s with
  | zero => exact .inr h
  | succ count ih =>
    rcases ih h with heq | hold
    · exact .inl heq
    · rw [thunk?, addDemand, Array.getElem?_push] at hold
      split at hold
      · exact .inl (Option.some.inj hold).symm
      · exact .inr hold

/-- The stages bring no environments along. -/
theorem Holds.of_addDemands {count : Nat} (h : (s.addDemands count).Holds env) : s.Holds env := by
  induction count generalizing s with
  | zero => exact h
  | succ count ih =>
    have hone : ∀ {id x}, s.addDemand.thunk? id = some x → x = .evaluating ∨ s.thunk? id = some x :=
      fun hx => thunk?_of_addDemands (show (s.addDemands 1).thunk? _ = some _ from hx)
    cases ih h with
    | @bound frame name v hbinding henv =>
      have hadded : (s.addFrame [(placeholder, .deferred s.nextThunk)]).binding? frame name =
          some (.value v) := hbinding
      refine .bound ((binding?_of_addFrame hadded).resolve_left fun hnew => ?_) henv
      cases List.mem_singleton.1 (Fields.mem_of_get? hnew)
    | pending hthunk => exact .pending ((hone hthunk).resolve_left (by rintro ⟨⟩))
    | forced hthunk henv => exact .forced ((hone hthunk).resolve_left (by rintro ⟨⟩)) henv
    | spliced hinline henv => exact .spliced hinline henv

/-- To mark a deferred value and to make stages commute. -/
theorem enter_addDemands {id : ThunkId} (h : id.index < s.thunks.size) (count : Nat) :
    (s.addDemands count).enter id = (s.enter id).addDemands count := by
  induction count generalizing s with
  | zero => rfl
  | succ count ih =>
    have hlt : id.index < s.addDemand.thunks.size := by
      rw [addDemand, Array.size_push]
      exact Nat.lt_succ_of_lt h
    have hone : s.addDemand.enter id = (s.enter id).addDemand := by
      simp [addDemand, enter, setThunk, nextThunk, Array.setIfInBounds, h, Array.set_push,
        Nat.lt_succ_of_lt h]
    exact (ih hlt).trans (congrArg (addDemands · count) hone)

/-- To mark the deferred value of the last stage. -/
theorem enter_addStage (s : Store) (env : Env) (e : Expr) :
    (s.addStage env e).2.enter s.nextThunk = s.addDemand := by
  have hframes : ∀ f : Fields Binding → Fields Binding,
      (s.frames.push []).modify s.frames.size f = s.frames.push (f []) := by
    intro f
    refine Array.ext_getElem? fun i => ?_
    by_cases hi : i = s.frames.size
    · simp [hi, Array.getElem_modify]
    · simp [Array.getElem?_modify, Array.getElem?_push, hi, Ne.symm hi]
  have hthunks : ∀ x y : Thunk, (s.thunks.push x).setIfInBounds s.thunks.size y =
      s.thunks.push y := by
    intro x y
    refine Array.ext_getElem? fun i => ?_
    by_cases hi : i = s.thunks.size
    · simp [hi]
    · simp [Array.getElem?_push, hi, Ne.symm hi]
  show Store.mk _ _ _ _ _ _ = Store.mk _ _ _ _ _ _
  rw [Store.mk.injEq]
  exact ⟨hframes _, hthunks _ _, rfl, rfl, rfl, rfl⟩

theorem thunk?_addStage_addDemands (s : Store) (env : Env) (e : Expr) (count : Nat) :
    ((s.addStage env e).2.addDemands count).thunk? s.nextThunk = some (.pending e env) := by
  have hpending := s.thunk?_addDeferred_self placeholder e env
  exact (thunk?_addDemands (lt_size_of_thunk? hpending) count).trans hpending

theorem enter_addStage_addDemands (s : Store) (env : Env) (e : Expr) (count : Nat) :
    ((s.addStage env e).2.addDemands count).enter s.nextThunk = s.addDemands (count + 1) := by
  have hlt : s.nextThunk.index < (s.addStage env e).2.thunks.size :=
    lt_size_of_thunk? (s.thunk?_addDeferred_self placeholder e env)
  rw [enter_addDemands hlt, enter_addStage]
  rfl

end Store

/-! ### Two runs -/

/-- Two runs of chains that go on with the same steps. -/
structure TwoRuns where
  /-- How much was in the store before both. -/
  base : Sizes
  /-- How many stages there are in the first run. -/
  first : Nat
  /-- How many there are in the second one. -/
  second : Nat
  /-- How much further the second run may be nested. -/
  nesting : Nat
  steps : List Expr

namespace TwoRuns

variable (P : TwoRuns)

/-- The frame of a stage. -/
def frame (i : Nat) : FrameId := ⟨P.base.frames + i⟩

/-- The deferred value of a stage. -/
def thunk (i : Nat) : ThunkId := ⟨P.base.thunks + i⟩

/-- The store holds so much when a stage is made. -/
structure Reached (i : Nat) (s : Store) : Prop where
  frame : s.nextFrame = P.frame i
  thunk : s.nextThunk = P.thunk i

/-- The frames of so many stages bind the placeholder and nothing else. -/
def HasStages (count : Nat) (s : Store) : Prop :=
  ∀ i < count, s.bindings (P.frame i) = [(placeholder, .deferred (P.thunk i))]

/-- What the stores of two runs have in common where a step is evaluated: names refer to the same in
the two environments, the steps are first-order, and the stages are there. -/
structure Alike (here there : Env) (s t : Store) : Prop where
  code : ∀ e ∈ P.steps, Calculation s here e
  names : ∀ name, name ≠ placeholder → t.resolve there name = s.resolve here name
  first : P.HasStages P.first s
  second : P.HasStages P.second t

/-- In these environments the placeholder is followed by itself in the other run, both ways, from
these two stores in which the environments are entered, and from all related stores. -/
structure Ascent (here there : Env) (u u' : Store) (R : Store → Store → Prop) : Prop where
  start : R u u'
  depth : u'.depth = u.depth
  alike : ∀ s t, R s t → P.Alike here there s t
  forth : ∀ k, Follows R ((Evaluator.level k).lookup here placeholder)
    ((Evaluator.level (k + P.nesting)).lookup there placeholder)
  back : ∀ k, Follows (flip R) ((Evaluator.level k).lookup there placeholder)
    ((Evaluator.level k).lookup here placeholder)

variable {P} {here there : Env} {s s' t t' u u' : Store} {R : Store → Store → Prop} {e e' : Expr}
  {i i' : Nat}

/-! ### Stages by number -/

theorem reached_addDemands (hbase : P.base = s.sizes) (count : Nat) :
    P.Reached count (s.addDemands count) := by
  obtain ⟨hframes, hthunks⟩ := s.sizes_addDemands count
  refine ⟨?_, ?_⟩
  · rw [frame, hbase, Store.nextFrame, hframes, Store.sizes]
  · rw [thunk, hbase, Store.nextThunk, hthunks, Store.sizes]

theorem Reached.addStage (h : P.Reached i s) (env : Env) (e : Expr) :
    P.Reached (i + 1) (s.addStage env e).2 := by
  have hsizes := s.sizes_addDeferred placeholder e env
  have hframe : (s.addStage env e).2.nextFrame = ⟨s.nextFrame.index + 1⟩ :=
    congrArg (fun z => FrameId.mk z.frames) hsizes
  have hthunk : (s.addStage env e).2.nextThunk = ⟨s.nextThunk.index + 1⟩ :=
    congrArg (fun z => ThunkId.mk z.thunks) hsizes
  exact ⟨by rw [hframe, h.frame]; rfl, by rw [hthunk, h.thunk]; rfl⟩

theorem Reached.addStages (h : P.Reached i s) (env : Env) (es : List Expr) :
    P.Reached (i + es.length) (s.addStages env es).2 := by
  induction es generalizing s env i with
  | nil => exact h
  | cons e rest ih =>
    have hrest := ih (h.addStage env e) (s.addStage env e).1
    rw [Nat.add_right_comm] at hrest
    exact hrest

/-- The deferred value waits while those of later stages are evaluated. -/
theorem Reached.pending (h : P.Reached i s) (env : Env) (e : Expr) (count : Nat) :
    ((s.addStage env e).2.addDemands count).thunk? (P.thunk i) = some (.pending e env) :=
  h.thunk ▸ s.thunk?_addStage_addDemands env e count

/-- When its turn comes, one more of them is being evaluated. -/
theorem Reached.enter (h : P.Reached i s) (env : Env) (e : Expr) (count : Nat) :
    ((s.addStage env e).2.addDemands count).enter (P.thunk i) = s.addDemands (count + 1) :=
  h.thunk ▸ s.enter_addStage_addDemands env e count

/-- Stages do not change what other names refer to. -/
theorem HasStages.resolve_stages {count : Nat} (h : P.HasStages count s) {env : Env} {n : Nat}
    (hn : i + n ≤ count) {name : String} (hname : name ≠ placeholder) :
    s.resolve (env.stages (P.base.frames + i) n) name = s.resolve env name := by
  induction n with
  | zero => rfl
  | succ n ih =>
    have hframe : s.bindings ⟨P.base.frames + i + n⟩ =
        [(placeholder, .deferred (P.thunk (i + n)))] := by
      rw [Nat.add_assoc]
      exact h (i + n) (by omega)
    rw [Env.stages_succ, Store.resolve_within_of_ne hframe hname]
    exact ih (by omega)

/-! ### What the stores have in common -/

namespace Alike

theorem of_frames_eq (h : P.Alike here there s t) (hs : s'.frames = s.frames)
    (ht : t'.frames = t.frames) : P.Alike here there s' t' := by
  have hresolve : ∀ {s s' : Store}, s'.frames = s.frames → ∀ env name,
      s'.resolve env name = s.resolve env name := by
    intro s s' hs env name
    unfold Store.resolve Store.find? Store.binding? Store.bindings
    rw [hs]
  have hstages : ∀ {count} {s s' : Store}, s'.frames = s.frames → P.HasStages count s →
      P.HasStages count s' := by
    intro count s s' hs h i hi
    rw [Store.bindings, hs]
    exact h i hi
  refine ⟨fun e he => (h.code e he).of_resolve_eq fun name _ => hresolve hs here name, ?_,
    hstages hs h.first, hstages ht h.second⟩
  intro name hname
  rw [hresolve ht, hresolve hs]
  exact h.names name hname

/-- One stage within both environments. -/
theorem within (h : P.Alike here there s t) (hi : i < P.first) (hi' : i' < P.second) :
    P.Alike (here.within (P.frame i)) (there.within (P.frame i')) s t := by
  have hhere : ∀ name, name ≠ placeholder →
      s.resolve (here.within (P.frame i)) name = s.resolve here name :=
    fun _ hname => Store.resolve_within_of_ne (h.first i hi) hname
  refine ⟨fun e he => (h.code e he).of_resolve_eq hhere, fun name hname => ?_, h.first, h.second⟩
  rw [hhere name hname, Store.resolve_within_of_ne (h.second i' hi') hname]
  exact h.names name hname

end Alike

/-- The placeholder of a stage is its deferred value. -/
theorem follows_lookup {id id' : ThunkId} {frame frame' : FrameId}
    (h : ∀ s t, R s t → s.bindings frame = [(placeholder, .deferred id)] ∧
      t.bindings frame' = [(placeholder, .deferred id')]) {ev ev' : Evaluator}
    (hforce : Follows R (ev.force id) (ev'.force id')) :
    Follows R (ev.lookup (here.within frame) placeholder)
      (ev'.lookup (there.within frame') placeholder) := by
  intro s t hst
  obtain ⟨hs, ht⟩ := h s t hst
  rw [ev.lookup_of_resolve (Store.resolve_of_find? rfl (Store.find?_within_self hs)),
    ev'.lookup_of_resolve (Store.resolve_of_find? rfl (Store.find?_within_self ht))]
  exact hforce s t hst

namespace Ascent

/-- A step is followed by itself. -/
theorem follows_eval (h : P.Ascent here there u u' R) (he : e ∈ P.steps) (k : Nat) :
    Follows R ((Evaluator.level k).eval here e)
      ((Evaluator.level (k + P.nesting)).eval there e) :=
  Calculation.follows (fun s t hst => (h.alike s t hst).names) h.forth
    (fun s t hst => (h.alike s t hst).code e he) k

/-- The comparison holds in the other direction as well. -/
theorem follows_eval_flip (h : P.Ascent here there u u' R) (he : e ∈ P.steps) (k : Nat) :
    Follows (flip R) ((Evaluator.level k).eval there e) ((Evaluator.level k).eval here e) := by
  have hnames : ∀ t s, flip R t s → ∀ name, name ≠ placeholder →
      s.resolve here name = t.resolve there name :=
    fun t s hst name hname => ((h.alike s t hst).names name hname).symm
  have hback : ∀ k, Follows (flip R) ((Evaluator.level k).lookup there placeholder)
      ((Evaluator.level (k + 0)).lookup here placeholder) := h.back
  refine Calculation.follows hnames hback (fun t s hst => ?_) k
  exact ((h.alike s t hst).code e he).of_resolve_eq (h.alike s t hst).names

/-- One stage more in each run: what is deferred to is followed by what is deferred to there. -/
theorem rung (hi : i < P.first) (hi' : i' < P.second)
    (halike : ∀ s t, R s t → P.Alike here there s t) (hstart : P.Alike here there u u')
    (hu : u.thunk? (P.thunk i) = some (.pending e here))
    (hu' : u'.thunk? (P.thunk i') = some (.pending e' there)) (hdepth : u'.depth = u.depth)
    (hforth : ∀ k, EndsLike R ((Evaluator.level k).eval here e (u.enter (P.thunk i)))
      ((Evaluator.level (k + P.nesting)).eval there e' (u'.enter (P.thunk i'))))
    (hback : ∀ k, EndsLike (flip R) ((Evaluator.level k).eval there e' (u'.enter (P.thunk i')))
      ((Evaluator.level k).eval here e (u.enter (P.thunk i)))) :
    P.Ascent (here.within (P.frame i)) (there.within (P.frame i')) u u'
      (Demanded (P.thunk i) (P.thunk i') u u' R) := by
  have hall : ∀ s t, Demanded (P.thunk i) (P.thunk i') u u' R s t → P.Alike here there s t := by
    rintro _ _ (_ | ⟨h, -, -, v⟩)
    · exact hstart
    · exact (halike _ _ h).of_frames_eq rfl rfl
  have hstages := fun s t h => And.intro ((hall s t h).first i hi) ((hall s t h).second i' hi')
  refine ⟨.before, hdepth, fun s t h => (hall s t h).within hi hi', fun k => ?_, fun k => ?_⟩
  · exact follows_lookup hstages (Demanded.follows_force hu hu' hdepth (hforth k))
  · refine follows_lookup (fun t s h => (hstages s t h).symm) fun t s h => ?_
    have hends := Demanded.follows_force hu' hu hdepth.symm (hback k) t s (Demanded.flip_iff.2 h)
    exact hends.mono fun t s h => Demanded.flip_iff.1 h

/-- One stage more that is deferred to the same step in each run. -/
theorem next (h : P.Ascent here there (u.enter (P.thunk i)) (u'.enter (P.thunk i')) R)
    (he : e ∈ P.steps) (hi : i < P.first) (hi' : i' < P.second)
    (hu : u.thunk? (P.thunk i) = some (.pending e here))
    (hu' : u'.thunk? (P.thunk i') = some (.pending e there)) :
    P.Ascent (here.within (P.frame i)) (there.within (P.frame i')) u u'
      (Demanded (P.thunk i) (P.thunk i') u u' R) := by
  have hstart : P.Alike here there u u' := (h.alike _ _ h.start).of_frames_eq rfl rfl
  refine rung hi hi' h.alike hstart hu hu' (Nat.succ.inj h.depth) (fun k => ?_) fun k => ?_
  · exact h.follows_eval he k _ _ h.start
  · exact h.follows_eval_flip he k _ _ h.start

/-- The same stages in both runs, while so many others that are made later are evaluated. -/
theorem stages {es : List Expr} (hes : ∀ e ∈ es, e ∈ P.steps) {j j' : Nat}
    (h : P.Ascent here there (u.addDemands (es.length + j)) (u'.addDemands (es.length + j')) R)
    (hu : P.Reached i u) (hu' : P.Reached i' u') (hi : i + es.length ≤ P.first)
    (hi' : i' + es.length ≤ P.second) :
    ∃ Q, P.Ascent (u.addStages here es).1 (u'.addStages there es).1
      ((u.addStages here es).2.addDemands j) ((u'.addStages there es).2.addDemands j') Q := by
  induction es generalizing here there u u' R i i' with
  | nil =>
    rw [List.length_nil, Nat.zero_add, Nat.zero_add] at h
    exact ⟨R, h⟩
  | cons e rest ih =>
    rw [List.length_cons] at hi hi'
    have hlength : ∀ j, (e :: rest).length + j = rest.length + j + 1 := fun j => by
      rw [List.length_cons, Nat.add_right_comm]
    -- before this stage is demanded, all those above it are
    rw [hlength, hlength, ← hu.enter here e, ← hu'.enter there e] at h
    have hnext := h.next (hes e (by simp)) (by omega) (by omega) (hu.pending here e _)
      (hu'.pending there e _)
    rw [← hu.frame, ← hu'.frame] at hnext
    exact ih (fun e he => hes e (by simp [he])) hnext (hu.addStage here e) (hu'.addStage there e)
      (by omega) (by omega)

end Ascent

/-! ### The head -/

/-- Both runs are in the same store, in which the head is evaluated or has been evaluated. -/
def AtHead (start : Store) (env : Env) (head : Expr) (t t' : Store) : Prop :=
  t' = t ∧ (t = start ∨ ∃ k v, (Evaluator.level k).eval env head start = (.ok v, t))

theorem AtHead.symm {start : Store} {env : Env} {head : Expr} (h : AtHead start env head t t') :
    AtHead start env head t' t := by
  obtain ⟨rfl, h⟩ := h
  exact ⟨rfl, h⟩

theorem AtHead.ends (start : Store) (env : Env) (head : Expr) (k : Nat) :
    EndsLike (AtHead start env head) ((Evaluator.level k).eval env head start)
      ((Evaluator.level k).eval env head start) :=
  .refl fun v hv => ⟨rfl, .inr ⟨k, v, Prod.ext hv rfl⟩⟩

namespace Ascent

/-- Both runs begin with the same head, the second one while so many stages of another chain are
being evaluated.  What is needed are the facts about the stores in which the head is evaluated and
has been evaluated. -/
theorem of_head {env : Env} {head : Expr} {count m : Nat} (hbase : P.base = s.sizes)
    (hfirst : P.first = count + 1 + m) (hsecond : P.second = P.first) (hnesting : P.nesting = 0)
    (hhead : ∀ t, (t = s.addDemands P.first ∨
      ∃ k v, (Evaluator.level k).eval env head (s.addDemands P.first) = (.ok v, t)) →
        (∀ e ∈ P.steps, Calculation t env e) ∧ P.HasStages P.first t) :
    ∃ R, P.Ascent (env.within (P.frame 0)) (env.within (P.frame m))
      ((s.addStage env head).2.addDemands (count + m))
      (((s.addDemands m).addStage env head).2.addDemands (count + 0)) R := by
  let atHead : Store := s.addDemands P.first
  have halike : ∀ t t', AtHead atHead env head t t' → P.Alike env env t t' := by
    rintro t _ ⟨rfl, h⟩
    obtain ⟨hcode, hstages⟩ := hhead _ h
    exact ⟨hcode, fun _ _ => rfl, hstages, hsecond ▸ hstages⟩
  have hreached : P.Reached 0 s := reached_addDemands hbase 0
  have hreached' : P.Reached m (s.addDemands m) := reached_addDemands hbase m
  let u : Store := (s.addStage env head).2.addDemands (count + m)
  let u' : Store := ((s.addDemands m).addStage env head).2.addDemands (count + 0)
  -- when the head is demanded, the stores are the same
  have hu : u.enter (P.thunk 0) = atHead :=
    (hreached.enter env head _).trans (congrArg s.addDemands (by omega))
  have hu' : u'.enter (P.thunk m) = atHead := by
    refine (hreached'.enter env head _).trans ?_
    rw [← Store.addDemands_add]
    exact congrArg s.addDemands (by omega)
  have hframes : (u.enter (P.thunk 0)).frames = atHead.frames := congrArg Store.frames hu
  have hframes' : (u'.enter (P.thunk m)).frames = atHead.frames := congrArg Store.frames hu'
  have hdepth : u'.depth = u.depth := Nat.succ.inj (congrArg Store.depth (hu'.trans hu.symm))
  have hstart : P.Alike env env u u' :=
    (halike atHead atHead ⟨rfl, .inl rfl⟩).of_frames_eq hframes hframes'
  refine ⟨_, rung (by omega) (by omega) halike hstart (hreached.pending env head _)
    (hreached'.pending env head _) hdepth (fun k => ?_) fun k => ?_⟩
  · rw [hu, hu', hnesting]
    exact AtHead.ends atHead env head k
  · rw [hu, hu']
    exact (AtHead.ends atHead env head k).mono fun _ _ => AtHead.symm

/-- And go on with the same steps, in the stages above. -/
theorem exists_of_head {env : Env} {head : Expr} {es : List Expr} {m : Nat}
    (hbase : P.base = s.sizes) (hfirst : P.first = es.length + 1 + m)
    (hsecond : P.second = P.first) (hnesting : P.nesting = 0) (hes : ∀ e ∈ es, e ∈ P.steps)
    (hhead : ∀ t, (t = s.addDemands P.first ∨
      ∃ k v, (Evaluator.level k).eval env head (s.addDemands P.first) = (.ok v, t)) →
        (∀ e ∈ P.steps, Calculation t env e) ∧ P.HasStages P.first t) :
    ∃ R, P.Ascent (s.addStages env (head :: es)).1 ((s.addDemands m).addStages env (head :: es)).1
      ((s.addStages env (head :: es)).2.addDemands m)
      ((s.addDemands m).addStages env (head :: es)).2 R := by
  obtain ⟨R, hrung⟩ := of_head hbase hfirst hsecond hnesting hhead
  have hreached : P.Reached 0 s := reached_addDemands hbase 0
  have hreached' : P.Reached m (s.addDemands m) := reached_addDemands hbase m
  rw [← hreached.frame, ← hreached'.frame] at hrung
  exact hrung.stages hes (hreached.addStage env head) (hreached'.addStage env head) (by omega)
    (by omega)

end Ascent

end TwoRuns

end PipeLang
