import PipeLang.Proofs.Growth

/-!
# Assigning to outer variables

An assignment with `<<-` changes one binding of one frame, and nothing else in the store
(`assignOuter_writes_one_frame`).  `Store.Receives` says which frame that is, in terms of the frames
that an environment sees: the nearest one around the own frame that binds the name, and otherwise
the outermost one.  The root frame does not count as either.

The frames of an environment are different from each other, as each one was made within those that
come after it.  So the frame that is written is not the root frame, and it is the own frame only if
no other one lies between that and the root.
-/

namespace PipeLang

/-- Among the frames of the environment the assignment of the name is meant for this one: it is the
nearest one around the own frame that binds the name, and not the root; or none of these binds it,
and it is the last one before the root. -/
inductive Store.Receives (s : Store) (env : Env) (name : String) : FrameId → Prop
  | bound {nearer farther : List FrameId} {frame : FrameId}
      (houter : env.outer = nearer ++ frame :: farther) (hfarther : farther ≠ [])
      (hbound : (s.binding? frame name).isSome)
      (hnearer : ∀ other ∈ nearer, s.binding? other name = none) : Receives s env name frame
  | unbound {inner : List FrameId} {frame root : FrameId}
      (hvisible : env.visible = inner ++ [frame, root])
      (hnone : ∀ other ∈ env.outer.dropLast, s.binding? other name = none) :
      Receives s env name frame

variable {s : Store} {env : Env}

theorem Env.outer_eq_append (h : env.outer ≠ []) :
    env.outer = env.outer.dropLast ++ [env.rootFrame] := by
  have hlast : env.rootFrame = env.outer.getLast h := List.getLast_cons h
  rw [hlast, List.dropLast_concat_getLast]

theorem Env.outer_ne_nil_of_parent? (h : env.parent? ≠ none) : env.outer ≠ [] := by
  intro hnil
  rw [parent?, hnil] at h
  exact h rfl

theorem Store.receives_assignedFrame (h : env.outer ≠ []) (s : Store) (name : String) :
    s.Receives env name (s.assignedFrame env name) := by
  have houter := Env.outer_eq_append h
  rcases s.assignedFrame_cases env name with ⟨nearer, farther, hsplit, hbound, hnearer⟩ |
    ⟨hnone, hlast⟩
  · rw [hsplit, List.append_assoc, List.cons_append] at houter
    exact .bound houter (by simp) hbound hnearer
  -- the last frame before the root may be the own one
  · rcases List.eq_nil_or_concat env.outer.dropLast with hnil | ⟨init, frame, hconcat⟩
    · have hvisible : env.visible = [] ++ [env.own, env.rootFrame] := by
        rw [Env.visible, houter, hnil]
        rfl
      rw [hlast, hnil]
      exact .unbound hvisible hnone
    · have hvisible : env.visible = (env.own :: init) ++ [frame, env.rootFrame] := by
        rw [Env.visible, houter, hconcat, List.concat_eq_append, List.append_assoc]
        rfl
      rw [hlast, hconcat, List.concat_eq_append, List.getLast?_concat]
      exact .unbound hvisible hnone

/-- A new frame is different from those around it. -/
theorem Store.HasFrames.nodup_within (henv : s.HasFrames env) (hdistinct : env.visible.Nodup) :
    (env.within s.nextFrame).visible.Nodup := by
  rw [Env.visible_within, List.nodup_cons]
  exact ⟨fun hmem => Nat.lt_irrefl _ (henv _ hmem), hdistinct⟩

/-- An assignment to an outer variable, in an environment within another one, binds the name in the
frame that it is meant for and changes no other binding there, no other frame, and nothing else in
the store.  In particular the root frame stays as it is, and so does the own frame if it is not the
last one before the root. -/
theorem assignOuter_writes_one_frame (henv : s.HasFrames env) (hdistinct : env.visible.Nodup)
    (hparent : env.parent? ≠ none) (name : String) (v : Value) :
    let target := s.assignedFrame env name
    let t := s.assignOuter env name v
    s.Receives env name target ∧
      (∀ frame key, t.binding? frame key =
        if frame = target ∧ key = name then some (.value v) else s.binding? frame key) ∧
      (∀ frame, frame ≠ target → t.bindings frame = s.bindings frame) ∧
      t.bindings env.rootFrame = s.bindings env.rootFrame ∧
      (env.outer ≠ [env.rootFrame] → t.bindings env.own = s.bindings env.own) ∧
      { t with frames := s.frames } = s := by
  intro target t
  have houter := Env.outer_ne_nil_of_parent? hparent
  have hsplit := Env.outer_eq_append houter
  have hmem : target ∈ env.outer.dropLast ∨ env.outer.dropLast = [] ∧ target = env.own :=
    s.assignedFrame_mem env name
  have hothers : ∀ frame, frame ≠ target → t.bindings frame = s.bindings frame :=
    fun frame hframe => Store.bindings_bind_of_ne hframe s name (.value v)
  -- the own frame, those before the root, and the root are different frames
  rw [Env.visible, List.nodup_cons, hsplit, List.nodup_append] at hdistinct
  obtain ⟨hown, -, -, hroot⟩ := hdistinct
  have hown_root : env.own ≠ env.rootFrame := fun h => hown (by simp [h])
  refine ⟨Store.receives_assignedFrame houter s name, fun frame key => ?_, hothers, ?_, ?_, rfl⟩
  · split
    · next h =>
      have hlt : target.index < s.frames.size := henv _ (s.assignedFrame_mem_visible env name)
      rw [h.1, h.2]
      exact Store.binding?_bind_self s target name (.value v) hlt
    · next h =>
      exact Store.binding?_bind_of_ne (Decidable.not_and_iff_not_or_not.1 h) s (.value v)
  · refine hothers _ fun heq => ?_
    rcases hmem with hmem | ⟨-, heq'⟩
    · exact hroot _ hmem _ (List.mem_singleton_self _) heq.symm
    · exact hown_root (heq'.symm.trans heq.symm)
  · intro hne
    refine hothers _ fun heq => ?_
    rcases hmem with hmem | ⟨hnil, -⟩
    · exact hown (List.mem_append_left _ (heq ▸ hmem))
    · rw [hnil] at hsplit
      exact hne hsplit

/-- The name is bound in the own frame, in the last one before the root, and in the root. -/
theorem assignOuter_skips_own_and_root :
    let bound : Int64 → Fields Binding := fun i => [("x", .value (.int i))]
    let s : Store := { Store.empty with frames := #[bound 0, bound 1, [], bound 3] }
    let env : Env := ⟨⟨3⟩, [⟨2⟩, ⟨1⟩, ⟨0⟩], .auto⟩
    (s.HasFrames env ∧ env.visible.Nodup ∧ env.parent? ≠ none) ∧
      s.assignedFrame env "x" = ⟨1⟩ ∧
      ∀ frame key, (s.assignOuter env "x" (.int 9)).binding? frame key =
        if frame = ⟨1⟩ ∧ key = "x" then some (.value (.int 9)) else s.binding? frame key := by
  intro bound s env
  have henv : s.HasFrames env := by decide
  have hdistinct : env.visible.Nodup := by decide
  have hparent : env.parent? ≠ none := by decide
  have hassigned : s.assignedFrame env "x" = ⟨1⟩ := by decide
  obtain ⟨-, hbinding, -⟩ := assignOuter_writes_one_frame henv hdistinct hparent "x" (.int 9)
  exact ⟨⟨henv, hdistinct, hparent⟩, hassigned, hassigned ▸ hbinding⟩

end PipeLang
