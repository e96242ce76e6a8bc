import Mathlib.Data.List.Cycle
import PipeLang.Program
import PipeLang.Proofs.Demand

/-!
# Deferred values that need each other

Pending values whose expressions are names of one another can form a cycle (`Store.Awaits` is the
link between two of them).  A demand of one of them begins to evaluate all of them, one within the
other, until it comes back to the first one or reaches the limit, whichever is sooner, and on the
way out every mark is taken off again (`cyclic_values_are_detected`).

`Store.Leads` counts the pending values that a demand marks before it meets one that is marked
already.  `Evaluator.force_of_leads` follows these marks, and on a cycle their number is its length
(`Store.leads_of_cycle`).
-/

namespace PipeLang

namespace Store

/-- The pending value of `a` is the name of `b` over the frame, which binds that name to the value
of `b`. -/
structure Awaits (s : Store) (frame : FrameId) (a b : String × ThunkId) : Prop where
  plain : unqualified? b.1 = none
  bound : s.binding? frame b.1 = some (.deferred b.2)
  pending : ∃ span env, s.thunk? a.2 = some (.pending (.sym b.1 span) env) ∧ env.own = frame

/-- A demand of the deferred value marks `r` pending values, each of them by the name that is the
expression of the one before, and then meets one that is marked already. -/
inductive Leads : Store → ThunkId → Nat → Prop
  | evaluating {s : Store} {id : ThunkId} (h : s.thunk? id = some .evaluating) : Leads s id 0
  | pending {s : Store} {id next : ThunkId} {name : String} {span : Span} {env : Env} {r : Nat}
      (h : s.thunk? id = some (.pending (.sym name span) env))
      (hname : (s.enter id).resolve env name = .ok (.deferred next))
      (hnext : Leads (s.enter id) next r) : Leads s id (r + 1)

variable {s : Store} {frame : FrameId} {id : ThunkId} {r : Nat}

/-- Taking the mark off gives back the store from before it was set. -/
theorem leave_enter {t : Thunk} (h : s.thunk? id = some t) : (s.enter id).leave id t = s := by
  obtain ⟨hlt, ht⟩ := Array.getElem?_eq_some_iff.1 h
  have hthunks : (s.thunks.setIfInBounds id.index .evaluating).setIfInBounds id.index t =
      s.thunks := by
    rw [Array.setIfInBounds_setIfInBounds, ← ht]
    ext j
    · rw [Array.size_setIfInBounds]
    · grind
  simp only [enter, leave, setThunk, hthunks, Nat.add_sub_cancel]

/-! ### Marks along a chain -/

theorem Awaits.leads {t : Store} {a b : String × ThunkId} (h : s.Awaits frame a b)
    (hframes : t.frames = s.frames) (hsame : t.thunk? a.2 = s.thunk? a.2)
    (hnext : (t.enter a.2).Leads b.2 r) : t.Leads a.2 (r + 1) := by
  obtain ⟨span, env, hthunk, rfl⟩ := h.pending
  have hbound : (t.enter a.2).binding? env.own b.1 = some (.deferred b.2) := by
    show (t.frames[env.own.index]?.getD []).get? b.1 = _
    rw [hframes]
    exact h.bound
  exact .pending (hsame.trans hthunk) (resolve_of_find? h.plain (find?_of_own hbound)) hnext

/-- Along a chain of pending values, some of which may be marked by now in another place, the first
one leads to the mark at the end. -/
theorem leads_of_isChain {l : List (String × ThunkId)} {last : String × ThunkId}
    (hchain : List.IsChain (s.Awaits frame) (l ++ [last])) (hdistinct : (l.map Prod.snd).Nodup)
    {t : Store} (hframes : t.frames = s.frames) (hsame : ∀ a ∈ l, t.thunk? a.2 = s.thunk? a.2)
    (hlast : t.thunk? last.2 = some .evaluating) :
    ∀ first ∈ (l ++ [last]).head?, t.Leads first.2 l.length := by
  induction l generalizing t with
  | nil =>
    rintro _ ⟨⟩
    exact .evaluating hlast
  | cons a rest ih =>
    rintro _ ⟨⟩
    rw [List.cons_append, List.isChain_cons] at hchain
    obtain ⟨hlink, hchain⟩ := hchain
    rw [List.map_cons, List.nodup_cons] at hdistinct
    obtain ⟨hnew, hdistinct⟩ := hdistinct
    obtain ⟨ha, hrest⟩ := List.forall_mem_cons.1 hsame
    obtain ⟨next, hnext⟩ : ∃ next, next ∈ (rest ++ [last]).head? := by
      cases rest <;> exact ⟨_, rfl⟩
    -- the last one is being evaluated, while this one is pending
    have hne : last.2 ≠ a.2 := by
      intro heq
      obtain ⟨span, env, hthunk, -⟩ := (hlink next hnext).pending
      rw [heq, ha, hthunk] at hlast
      cases hlast
    refine (hlink next hnext).leads hframes ha ?_
    -- to enter this one changes no other state of the chain
    refine ih (t := t.enter a.2) hchain hdistinct hframes ?_ ?_ next hnext
    · intro b hb
      have hb' : b.2 ≠ a.2 := fun heq => hnew (heq ▸ List.mem_map_of_mem hb)
      rw [thunk?_enter_of_ne hb', hrest b hb]
    · rw [thunk?_enter_of_ne hne, hlast]

/-! ### Marks along a cycle -/

variable {cycle : Cycle (String × ThunkId)} {a : String × ThunkId}

/-- A cycle can be written down from any of its members on. -/
theorem exists_eq_cons_of_mem (ha : a ∈ cycle) : ∃ rest, cycle = (a :: rest : List _) := by
  induction cycle using Quotient.inductionOn with
  | _ l =>
    obtain ⟨before, after, rfl⟩ := List.append_of_mem (Cycle.mem_coe_iff.1 ha)
    exact ⟨after ++ before, Cycle.coe_eq_coe.2 List.isRotated_append⟩

theorem leads_of_cycle (hcycle : cycle.Chain (s.Awaits frame))
    (hdistinct : (cycle.map Prod.snd).Nodup) (ha : a ∈ cycle) : s.Leads a.2 cycle.length := by
  obtain ⟨rest, rfl⟩ := exists_eq_cons_of_mem ha
  rw [Cycle.chain_coe_cons, List.isChain_cons] at hcycle
  rw [Cycle.map_coe, Cycle.nodup_coe_iff, List.map_cons, List.nodup_cons] at hdistinct
  obtain ⟨hlink, hchain⟩ := hcycle
  obtain ⟨hnew, hdistinct⟩ := hdistinct
  obtain ⟨next, hnext⟩ : ∃ next, next ∈ (rest ++ [a]).head? := by
    cases rest <;> exact ⟨_, rfl⟩
  obtain ⟨span, env, hthunk, -⟩ := (hlink next hnext).pending
  refine (hlink next hnext).leads rfl rfl ?_
  refine leads_of_isChain (t := s.enter a.2) hchain hdistinct rfl ?_ (thunk?_enter_self hthunk)
    next hnext
  intro b hb
  have hb' : b.2 ≠ a.2 := fun heq => hnew (heq ▸ List.mem_map_of_mem hb)
  exact thunk?_enter_of_ne hb' s

/-- Every member of a cycle is bound under its name, as the one before it refers to it. -/
theorem resolve_of_cycle (hcycle : cycle.Chain (s.Awaits frame)) (ha : a ∈ cycle) {env : Env}
    (henv : env.own = frame) : s.resolve env a.1 = .ok (.deferred a.2) := by
  obtain ⟨rest, rfl⟩ := exists_eq_cons_of_mem ha
  rw [Cycle.chain_coe_cons, ← List.cons_append, List.isChain_append] at hcycle
  obtain ⟨before, hbefore⟩ : ∃ before, before ∈ (a :: rest).getLast? :=
    ⟨_, List.getLast?_eq_getLast_of_ne_nil (List.cons_ne_nil a rest)⟩
  have hlink := hcycle.2.2 before hbefore a rfl
  subst henv
  exact resolve_of_find? hlink.plain (find?_of_own hlink.bound)

end Store

namespace Evaluator

variable {s : Store} {id : ThunkId} {n r : Nat}

/-- How a demand fails that sets `r` marks before it meets a mark, at a certain depth. -/
def cyclicError (depth r : Nat) : EvalError :=
  if depth + r + 1 ≤ depthLimit then .recursive else .tooDeep depthLimit

/-- The demand fails at the mark or at the limit, and every mark that it has set is taken off. -/
theorem force_of_leads (h : s.Leads id r) (hn : depthLimit ≤ s.depth + n) :
    (level n).force id s = (.error (cyclicError s.depth r), s) := by
  induction h generalizing n with
  | @evaluating s id h =>
    rw [force_of_evaluating _ h, cyclicError, Nat.add_zero]
    by_cases hdepth : depthLimit ≤ s.depth
    · rw [if_pos hdepth, if_neg (Nat.not_le.2 (Nat.lt_succ_of_le hdepth))]
    · rw [if_neg hdepth, if_pos (Nat.succ_le_of_lt (Nat.lt_of_not_le hdepth))]
  | @pending s id next name span env r h hname _ ih =>
    -- hdepth | the demand goes on to the next value, or there is no room for it
    rcases Nat.lt_or_ge s.depth depthLimit with hdepth | hdepth
    · obtain ⟨m, rfl⟩ : ∃ m, n = m + 1 := Nat.exists_eq_succ_of_ne_zero (by omega)
      have hdepth' : depthLimit ≤ (s.enter id).depth + m := by
        rw [Store.depth_enter]
        omega
      have heval : (level (m + 1)).eval env (.sym name span) (s.enter id) =
          (.error (cyclicError (s.depth + 1) r), s.enter id) := by
        show (level m).lookup env name (s.enter id) = _
        rw [lookup_of_resolve _ hname]
        exact ih hdepth'
      have hsame : cyclicError (s.depth + 1) r = cyclicError s.depth (r + 1) := by
        rw [cyclicError, cyclicError, Nat.add_right_comm s.depth 1 r, Nat.add_assoc s.depth r 1]
      rw [force_of_pending _ h hdepth, heval, hsame]
      exact congrArg _ (Store.leave_enter h)
    · have hfar : ¬ s.depth + (r + 1) + 1 ≤ depthLimit := by omega
      rw [force_of_tooDeep _ h hdepth, cyclicError, if_neg hfar]

end Evaluator

/-! ### The end of a demand -/

/-- In a cycle of pending values, which are bound in one frame under the names that are their
expressions, a demand of any of them ends with an error: that it needs itself, if the limit leaves
room to come back to it, and otherwise that the limit is reached.  The store is the one from before,
with all of them pending as they were and the same depth, so every further demand ends alike. -/
theorem cyclic_values_are_detected {s : Store} {frame : FrameId}
    {cycle : Cycle (String × ThunkId)} (hcycle : cycle.Chain (s.Awaits frame))
    (hdistinct : (cycle.map Prod.snd).Nodup) {name : String} {id : ThunkId}
    (hmem : (name, id) ∈ cycle) {n : Nat} (hn : depthLimit ≤ n) :
    let failure : EvalError :=
      if s.depth + cycle.length + 1 ≤ depthLimit then .recursive else .tooDeep depthLimit
    (Evaluator.level n).force id s = (.error failure, s) ∧
      (∀ env span, env.own = frame →
        (Evaluator.level (n + 1)).eval env (.sym name span) s = (.error failure, s)) ∧
      ∀ env other span, s.resolve env other = .ok (.deferred id) →
        (Evaluator.level (n + 1)).eval env (.sym other span) s = (.error failure, s) := by
  intro failure
  have hforce : (Evaluator.level n).force id s = (.error failure, s) :=
    Evaluator.force_of_leads (Store.leads_of_cycle hcycle hdistinct hmem) (by omega)
  have hsym : ∀ env other span, s.resolve env other = .ok (.deferred id) →
      (Evaluator.level (n + 1)).eval env (.sym other span) s = (.error failure, s) := by
    intro env other span hother
    show (Evaluator.level n).lookup env other s = _
    rw [Evaluator.lookup_of_resolve _ hother]
    exact hforce
  refine ⟨hforce, fun env span henv => ?_, hsym⟩
  exact hsym env name span (Store.resolve_of_cycle hcycle hmem henv)

/-- Two values that need each other, in the interpreter, with room for both and for one only. -/
theorem mutual_values_at_the_limit :
    let s := (((bareEnv .auto).2.bindDeferred (bareEnv .auto).1.own "x" (.sym "y" ⟨0, 1⟩)
      (bareEnv .auto).1).bindDeferred (bareEnv .auto).1.own "y" (.sym "x" ⟨0, 1⟩) (bareEnv .auto).1)
    Evaluator.interpreter.force ⟨0⟩ { s with depth := 125 } =
        (.error .recursive, { s with depth := 125 }) ∧
      Evaluator.interpreter.force ⟨0⟩ { s with depth := 126 } =
        (.error (.tooDeep 128), { s with depth := 126 }) := by
  intro s
  have hlinks : ∀ depth, Cycle.Chain ({ s with depth := depth }.Awaits (bareEnv .auto).1.own)
      ([("x", ⟨0⟩), ("y", ⟨1⟩)] : List (String × ThunkId)) := by
    intro depth
    rw [Cycle.chain_coe_cons, List.cons_append, List.isChain_cons_cons, List.nil_append,
      List.isChain_pair]
    exact ⟨⟨by decide, rfl, _, _, rfl, rfl⟩, ⟨by decide, rfl, _, _, rfl, rfl⟩⟩
  have hmem : ("x", (⟨0⟩ : ThunkId)) ∈
      (([("x", ⟨0⟩), ("y", ⟨1⟩)] : List (String × ThunkId)) : Cycle (String × ThunkId)) :=
    Cycle.mem_coe_iff.2 List.mem_cons_self
  have hlimit : depthLimit ≤ Evaluator.nestingLimit := by decide
  constructor
  · exact (cyclic_values_are_detected (hlinks 125) (by decide) hmem hlimit).1
  · exact (cyclic_values_are_detected (hlinks 126) (by decide) hmem hlimit).1

end PipeLang
