import PipeLang.Store.Basic

/-!
# Names in environments

A name is looked up from the own frame of an environment outward, and defined in the own frame.
A qualified name, `space::name`, is looked up in the root frame alone, whatever its space.

An assignment with `<<-` writes exactly one frame, the one that `assignedFrame` says: the nearest
frame around the own one that binds the name, the root frame excepted, and if there is none the
outermost frame before the root.
-/

namespace PipeLang

/-- The name after the first `::` of a qualified name. -/
def unqualified? (name : String) : Option String :=
  (go name.toList).map String.ofList
where
  /-- The characters after the first pair of colons. -/
  go : List Char → Option (List Char)
    | ':' :: ':' :: rest => some rest
    | _ :: rest => go rest
    | [] => none

/-- A qualified name ends with the name that it qualifies. -/
theorem unqualified?_suffix {name bare : String} (h : unqualified? name = some bare) :
    ∃ before, before ≠ [] ∧ name.toList = before ++ bare.toList := by
  have key : ∀ cs rest, unqualified?.go cs = some rest →
      ∃ before, before ≠ [] ∧ cs = before ++ rest := by
    intro cs
    induction cs using unqualified?.go.induct with
    | case1 rest =>
      rintro _ ⟨⟩
      exact ⟨[':', ':'], by simp, rfl⟩
    | case2 c cs hcolons ih =>
      intro rest hgo
      rw [unqualified?.go] at hgo
      · obtain ⟨before, -, happend⟩ := ih rest hgo
        exact ⟨c :: before, by simp, by rw [happend]; rfl⟩
      · exact hcolons
    | case3 => rintro _ ⟨⟩
  obtain ⟨rest, hgo, rfl⟩ := Option.map_eq_some_iff.1 h
  obtain ⟨before, hne, happend⟩ := key _ _ hgo
  exact ⟨before, hne, by rw [happend, String.toList_ofList]⟩

namespace Store

/-- The nearest binding of a name. -/
def find? (s : Store) (env : Env) (name : String) : Option Binding :=
  env.visible.findSome? fun frame => s.binding? frame name

/-- The own binding of a name. -/
def ownBinding? (s : Store) (env : Env) (name : String) : Option Binding :=
  s.binding? env.own name

/-- The binding that a name, qualified or not, refers to; or the name that is missing. -/
def resolve (s : Store) (env : Env) (name : String) : Except String Binding :=
  match unqualified? name with
  | some bare => toExcept bare (s.binding? env.rootFrame bare)
  | none => toExcept name (s.find? env name)
where
  /-- The binding, if there is one. -/
  toExcept (missing : String) : Option Binding → Except String Binding
    | some b => .ok b
    | none => .error missing

/-- Define a name in the own frame. -/
def define (s : Store) (env : Env) (name : String) (v : Value) : Store :=
  s.bind env.own name (.value v)

/-- Where an assignment to an outer variable goes. -/
def assignedFrame (s : Store) (env : Env) (name : String) : FrameId :=
  let around := env.outer.dropLast
  (around.find? fun frame => (s.binding? frame name).isSome).getD (around.getLast?.getD env.own)

/-- Assign to an outer variable. -/
def assignOuter (s : Store) (env : Env) (name : String) (v : Value) : Store :=
  s.bind (s.assignedFrame env name) name (.value v)

/-- Make an environment within this one. -/
def addChild (s : Store) (env : Env) (bindings : Fields Binding) : Env × Store :=
  (env.within s.nextFrame, s.addFrame bindings)

/-- The names of the own frame, in order. -/
def ownNames (s : Store) (env : Env) : List String := (s.bindings env.own).names

/-! ### Where an assignment goes -/

/-- To the first frame around the own one that binds the name, or to the last one if none does; the
root frame does not count. -/
theorem assignedFrame_cases (s : Store) (env : Env) (name : String) :
    (∃ nearer farther, env.outer.dropLast = nearer ++ s.assignedFrame env name :: farther ∧
      (s.binding? (s.assignedFrame env name) name).isSome ∧
      ∀ frame ∈ nearer, s.binding? frame name = none) ∨
    (∀ frame ∈ env.outer.dropLast, s.binding? frame name = none) ∧
      s.assignedFrame env name = env.outer.dropLast.getLast?.getD env.own := by
  unfold assignedFrame
  dsimp only
  rcases hfind : env.outer.dropLast.find? fun frame => (s.binding? frame name).isSome with _ | frame
  · refine .inr ⟨fun frame hframe => ?_, rfl⟩
    simpa using List.find?_eq_none.1 hfind frame hframe
  · obtain ⟨hbound, nearer, farther, hsplit, hnearer⟩ := List.find?_eq_some_iff_append.1 hfind
    refine .inl ⟨nearer, farther, hsplit, hbound, fun other hother => ?_⟩
    simpa using hnearer other hother

theorem assignedFrame_mem (s : Store) (env : Env) (name : String) :
    s.assignedFrame env name ∈ env.outer.dropLast ∨
      env.outer.dropLast = [] ∧ s.assignedFrame env name = env.own := by
  rcases s.assignedFrame_cases env name with ⟨nearer, farther, hsplit, -⟩ | ⟨-, hlast⟩
  · exact .inl (hsplit ▸ by simp)
  · rcases List.eq_nil_or_concat env.outer.dropLast with hnil | ⟨init, frame, hconcat⟩
    · exact .inr ⟨hnil, by rw [hlast, hnil]; rfl⟩
    · rw [hconcat] at hlast ⊢
      rw [hlast]
      simp

theorem assignedFrame_mem_visible (s : Store) (env : Env) (name : String) :
    s.assignedFrame env name ∈ env.visible := by
  rcases s.assignedFrame_mem env name with hmem | ⟨-, hown⟩
  · exact List.mem_cons_of_mem _ ((List.dropLast_sublist _).subset hmem)
  · rw [hown]
    exact List.mem_cons_self

/-! ### Finding names -/

variable {s t : Store} {env : Env} {name key : String}

theorem find?_congr (h : ∀ frame ∈ env.visible, t.binding? frame name = s.binding? frame name) :
    t.find? env name = s.find? env name := by
  unfold find?
  generalize env.visible = frames at h
  induction frames with
  | nil => rfl
  | cons frame rest ih =>
    rw [List.findSome?_cons, List.findSome?_cons, h frame (by simp),
      ih fun other hother => h other (by simp [hother])]

theorem resolve_of_find? {b : Binding} (hbare : unqualified? name = none)
    (h : s.find? env name = some b) : s.resolve env name = .ok b := by
  simp only [resolve, hbare, h, resolve.toExcept]

theorem find?_of_own {b : Binding} (h : s.binding? env.own name = some b) :
    s.find? env name = some b := by
  rw [find?, Env.visible, List.findSome?_cons, h]

theorem find?_within_of_none {frame : FrameId} (h : s.binding? frame name = none) :
    s.find? (env.within frame) name = s.find? env name := by
  rw [find?, Env.visible_within, List.findSome?_cons, h]
  rfl

theorem find?_define_self (hown : env.own.index < s.frames.size) (v : Value) :
    (s.define env name v).find? env name = some (.value v) :=
  find?_of_own (binding?_bind_self s env.own name _ hown)

theorem find?_define_of_ne (hne : key ≠ name) (s : Store) (env : Env) (v : Value) :
    (s.define env name v).find? env key = s.find? env key :=
  find?_congr fun _ _ => binding?_bind_of_ne (.inr hne) s _

end Store

end PipeLang
