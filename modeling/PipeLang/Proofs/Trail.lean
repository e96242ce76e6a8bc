import PipeLang.Proofs.Cursor

/-!
# Trails

A trail is what the parser can leave behind on its way from one position to another (`Trail`): parts
that begin, lexemes that are passed over, atoms with the lexemes that they take, and searches for an
alternative that lead back to where they began.  Trails of parts that succeed can be put together
(`Trail.append`); a part that fails may end with an atom that finds no lexeme to take.

All that is said about the moves of the parser is an induction on a trail:

* the moves lead from one position to the next one (`Trail.path`), within the lexemes
  (`Trail.lawful`);
* positions that are passed over ascend, as far as line breaks that are given back are left out
  (`Trail.ascending`);
* there is at most one atom more than lexemes (`Trail.atoms_le`);
* there are not many more moves than parts that begin (`Trail.length_le`).
-/

namespace PipeLang.Parser

variable {tokens : List Lexeme} {complete : Bool} {part : Part} {i j k n : Nat} {m : Move}
  {ms : List Move} {step : Nat → Move}

/-! ### Trails -/

/-- Whether this token stands at the position. -/
def isAt (tokens : List Lexeme) (token : Token) (i : Nat) : Bool :=
  tokens[i]?.any fun t => t.token == token

/-- The moves lead from one position to another one as those of a part of the parser do.  Unless it
is complete, the part has failed at the end. -/
inductive Trail (tokens : List Lexeme) : Bool → Nat → List Move → Nat → Prop
  | nil (complete : Bool) (i : Nat) : Trail tokens complete i [] i
  | enter {complete : Bool} {part : Part} {i j : Nat} {ms : List Move} (hpart : part ≠ .atom)
      (h : Trail tokens complete i ms j) : Trail tokens complete i (.enter part i :: ms) j
  | pass {complete : Bool} {i j : Nat} {ms : List Move} (hi : i < tokens.length)
      (h : Trail tokens complete (i + 1) ms j) : Trail tokens complete i (.pass i :: ms) j
  /-- An atom takes its first lexeme, and the line breaks before it. -/
  | atom {complete : Bool} {i j n : Nat} {ms : List Move} (hn : i + n < tokens.length)
      (h : Trail tokens complete (i + n + 1) ms j) :
      Trail tokens complete i (.enter .atom i :: (steps .take i (n + 1) ++ ms)) j
  /-- An atom takes line breaks and meets the end. -/
  | noAtom {i n : Nat} (hn : n ≤ tokens.length - i) :
      Trail tokens false i (.enter .atom i :: steps .take i n) (i + n)
  /-- There is no alternative after line breaks, and these are given back. -/
  | noElse {complete : Bool} {i j n : Nat} {ms : List Move} (hn : n ≤ tokens.length - i)
      (hbreaks : ∀ k, i ≤ k → k < i + n → isAt tokens .newline k = true)
      (helse : isAt tokens .elseWord (i + n) = false) (h : Trail tokens complete i ms j) :
      Trail tokens complete i (steps .pass i n ++ .noElse (i + n) i :: ms) j

namespace Trail

theorem le (h : Trail tokens complete i ms j) : i ≤ j := by
  induction h with
  | nil => exact Nat.le_refl _
  | enter _ _ ih => exact ih
  | pass _ _ ih => omega
  | atom _ _ ih => omega
  | noAtom => omega
  | noElse _ _ _ _ ih => exact ih

theorem le_length (h : Trail tokens complete i ms j) (hi : i ≤ tokens.length) :
    j ≤ tokens.length := by
  induction h with
  | nil => exact hi
  | enter _ _ ih => exact ih hi
  | pass hlt _ ih => exact ih hlt
  | atom hn _ ih => exact ih hn
  | noAtom hn => omega
  | noElse _ _ _ _ ih => exact ih hi

/-- A part that has succeeded may be followed by another one. -/
theorem append {ms' : List Move} (h : Trail tokens true i ms j)
    (h' : Trail tokens complete j ms' k) : Trail tokens complete i (ms ++ ms') k := by
  generalize hcomplete : true = whole at h
  induction h with
  | nil => exact h'
  | enter hpart _ ih => exact .enter hpart (ih h' hcomplete)
  | pass hi _ ih => exact .pass hi (ih h' hcomplete)
  | atom hn _ ih =>
    rw [List.cons_append, List.append_assoc]
    exact .atom hn (ih h' hcomplete)
  | noAtom => cases hcomplete
  | noElse hn hbreaks helse _ ih =>
    rw [List.append_assoc, List.cons_append]
    exact .noElse hn hbreaks helse (ih h' hcomplete)

theorem passes (hn : n ≤ tokens.length - i) : Trail tokens true i (steps .pass i n) (i + n) := by
  induction n generalizing i with
  | zero => exact .nil _ _
  | succ n ih =>
    have hrest := ih (i := i + 1) (by omega)
    rw [Nat.add_assoc, Nat.add_comm 1 n] at hrest
    exact .pass (by omega) hrest

end Trail

/-! ### The way of the cursor -/

@[simp] theorem steps_zero (step : Nat → Move) (i : Nat) : steps step i 0 = [] := rfl

theorem steps_succ (step : Nat → Move) (i n : Nat) :
    steps step i (n + 1) = step i :: steps step (i + 1) n := rfl

theorem steps_append_one (step : Nat → Move) (i n : Nat) :
    steps step i n ++ steps step (i + n) 1 = steps step i (n + 1) := by
  rw [steps, steps, ← List.map_append]
  exact congrArg (List.map step) List.range'_1_concat.symm

@[simp] theorem length_steps (step : Nat → Move) (i n : Nat) : (steps step i n).length = n := by
  simp [steps]

theorem exists_of_mem_steps (h : m ∈ steps step i n) : ∃ k, i ≤ k ∧ k < i + n ∧ m = step k := by
  obtain ⟨k, hk, rfl⟩ := List.mem_map.1 h
  obtain ⟨hle, hlt⟩ := List.mem_range'_1.1 hk
  exact ⟨k, hle, hlt, rfl⟩

/-- The moves lead from one position to another one, each from where the one before it ends. -/
inductive Path : Nat → List Move → Nat → Prop
  | nil (i : Nat) : Path i [] i
  | cons {i j : Nat} {m : Move} {ms : List Move} (hstart : m.start = i)
      (h : Path m.stop ms j) : Path i (m :: ms) j

theorem Path.append {ms' : List Move} (h : Path i ms j) (h' : Path j ms' k) :
    Path i (ms ++ ms') k := by
  induction h with
  | nil => exact h'
  | cons hstart _ ih => exact .cons hstart (ih h')

theorem path_steps (hstart : ∀ k, (step k).start = k) (hstop : ∀ k, (step k).stop = k + 1) :
    Path i (steps step i n) (i + n) := by
  induction n generalizing i with
  | zero => exact .nil _
  | succ n ih =>
    refine .cons (hstart i) ?_
    rw [hstop, Nat.add_comm n 1, ← Nat.add_assoc]
    exact ih

theorem Trail.path (h : Trail tokens complete i ms j) : Path i ms j := by
  have htakes : ∀ i n, Path i (steps .take i n) (i + n) := fun _ _ =>
    path_steps (fun _ => rfl) fun _ => rfl
  induction h with
  | nil => exact .nil _
  | enter _ _ ih => exact .cons rfl ih
  | pass _ _ ih => exact .cons rfl ih
  | atom _ _ ih => exact .cons rfl ((htakes _ _).append ih)
  | noAtom => exact .cons rfl (htakes _ _)
  | noElse _ _ _ _ ih =>
    exact (path_steps (fun _ => rfl) fun _ => rfl).append (.cons rfl ih)

/-- What is the case whenever the parser makes this move: the cursor is within the lexemes, passes
over one that is there, and goes back only over line breaks that no alternative follows. -/
def Move.Lawful (tokens : List Lexeme) : Move → Prop
  | enter _ i => i ≤ tokens.length
  | pass i | take i => i < tokens.length
  | noElse i back => back ≤ i ∧ i ≤ tokens.length ∧ isAt tokens .elseWord i = false ∧
      ∀ k, back ≤ k → k < i → isAt tokens .newline k = true

/-- Every move on the way is one that the parser may make. -/
theorem Trail.lawful (h : Trail tokens complete i ms j) (hi : i ≤ tokens.length) :
    ∀ m ∈ ms, m.Lawful tokens := by
  induction h with
  | nil => simp
  | enter _ _ ih => exact List.forall_mem_cons.2 ⟨hi, ih hi⟩
  | pass hlt _ ih => exact List.forall_mem_cons.2 ⟨hlt, ih hlt⟩
  | atom hn _ ih =>
    refine List.forall_mem_cons.2 ⟨hi, List.forall_mem_append.2 ⟨?_, ih hn⟩⟩
    intro m hm
    obtain ⟨k, -, hk, rfl⟩ := exists_of_mem_steps hm
    exact show k < tokens.length by omega
  | noAtom hn =>
    refine List.forall_mem_cons.2 ⟨hi, ?_⟩
    intro m hm
    obtain ⟨k, -, hk, rfl⟩ := exists_of_mem_steps hm
    exact show k < tokens.length by omega
  -- a move back passes over newlines, and only if no `else` stands behind them
  | noElse hn hbreaks helse _ ih =>
    have hback : Move.Lawful tokens (.noElse _ _) :=
      ⟨Nat.le_add_right _ _, by omega, helse, hbreaks⟩
    refine List.forall_mem_append.2 ⟨?_, List.forall_mem_cons.2 ⟨hback, ih hi⟩⟩
    intro m hm
    obtain ⟨k, -, hk, rfl⟩ := exists_of_mem_steps hm
    exact show k < tokens.length by omega

/-! ### Positions that are passed over -/

/-- Positions of a stretch, in ascending order. -/
def Ascending (i j : Nat) (positions : List Nat) : Prop :=
  positions.Pairwise (· < ·) ∧ ∀ k ∈ positions, i ≤ k ∧ k < j

theorem Ascending.nil (i j : Nat) : Ascending i j [] := ⟨.nil, by simp⟩

theorem Ascending.mono {positions : List Nat} {i' : Nat} (h : Ascending i j positions)
    (hi : i' ≤ i) : Ascending i' j positions :=
  ⟨h.1, fun p hp => ⟨Nat.le_trans hi (h.2 p hp).1, (h.2 p hp).2⟩⟩

theorem Ascending.append {positions others : List Nat} (h : Ascending i j positions)
    (h' : Ascending j k others) (hij : i ≤ j) (hjk : j ≤ k) :
    Ascending i k (positions ++ others) := by
  refine ⟨List.pairwise_append.2 ⟨h.1, h'.1, fun p hp q hq => ?_⟩, ?_⟩
  · exact Nat.lt_of_lt_of_le (h.2 p hp).2 (h'.2 q hq).1
  · refine List.forall_mem_append.2 ⟨fun p hp => ?_, fun q hq => ?_⟩
    · exact ⟨(h.2 p hp).1, Nat.lt_of_lt_of_le (h.2 p hp).2 hjk⟩
    · exact ⟨Nat.le_trans hij (h'.2 q hq).1, (h'.2 q hq).2⟩

/-- Which positions are looked at: some of those that are passed over, and none that may be given
back. -/
structure Picks (tokens : List Lexeme) (pick : Move → Option Nat) : Prop where
  enter : ∀ part i, pick (.enter part i) = none
  take : ∀ i, pick (.take i) = none ∨ pick (.take i) = some i
  pass : ∀ i, pick (.pass i) = none ∨ pick (.pass i) = some i
  noElse : ∀ i back, pick (.noElse i back) = none
  newline : ∀ i, isAt tokens .newline i = true → pick (.pass i) = none

theorem ascending_steps {pick : Move → Option Nat}
    (hstep : ∀ k, pick (step k) = none ∨ pick (step k) = some k) :
    Ascending i (i + n) ((steps step i n).filterMap pick) := by
  induction n generalizing i with
  | zero => exact .nil _ _
  | succ n ih =>
    have hrest : Ascending (i + 1) (i + (n + 1)) ((steps step (i + 1) n).filterMap pick) := by
      rw [Nat.add_comm n 1, ← Nat.add_assoc]
      exact ih
    rw [steps_succ]
    rcases hstep i with hnone | hsome
    · rw [List.filterMap_cons_none hnone]
      exact hrest.mono (Nat.le_succ i)
    · rw [List.filterMap_cons_some hsome]
      have hfirst : Ascending i (i + 1) [i] := ⟨List.pairwise_singleton _ _, by simp⟩
      exact hfirst.append hrest (by omega) (by omega)

/-- What is picked along the way comes in ascending order. -/
theorem Trail.ascending {pick : Move → Option Nat} (hpick : Picks tokens pick)
    (h : Trail tokens complete i ms j) : Ascending i j (ms.filterMap pick) := by
  induction h with
  | nil => exact .nil _ _
  | enter _ _ ih =>
    rw [List.filterMap_cons_none (hpick.enter _ _)]
    exact ih
  | @pass complete i j ms _ h ih =>
    have hfirst : Ascending i (i + 1) ((steps .pass i 1).filterMap pick) :=
      ascending_steps hpick.pass
    have hall := hfirst.append ih (Nat.le_succ i) h.le
    rwa [← List.filterMap_append] at hall
  | atom _ h ih =>
    rw [List.filterMap_cons_none (hpick.enter _ _), List.filterMap_append]
    exact (ascending_steps hpick.take).append ih (by omega) h.le
  | noAtom =>
    rw [List.filterMap_cons_none (hpick.enter _ _)]
    exact ascending_steps hpick.take
  | @noElse _ i _ n _ _ hbreaks _ _ ih =>
    -- the positions that are given back are newlines, which are not picked
    have hgone : (steps .pass i n).filterMap pick = [] := by
      refine List.filterMap_eq_nil_iff.2 fun m hm => ?_
      obtain ⟨k, hle, hlt, rfl⟩ := exists_of_mem_steps hm
      exact hpick.newline k (hbreaks k hle hlt)
    rw [List.filterMap_append, hgone, List.nil_append,
      List.filterMap_cons_none (hpick.noElse _ _)]
    exact ih

theorem picks_taken (tokens : List Lexeme) : Picks tokens Move.taken? where
  enter _ _ := rfl
  take _ := .inr rfl
  pass _ := .inl rfl
  noElse _ _ := rfl
  newline _ _ := rfl

/-- The positions that are passed over, line breaks left out. -/
theorem picks_passed (tokens : List Lexeme) :
    Picks tokens fun m => m.passed?.filter fun i => !isAt tokens .newline i where
  enter _ _ := rfl
  take i := by cases h : isAt tokens .newline i <;> simp [Move.passed?, h]
  pass i := by cases h : isAt tokens .newline i <;> simp [Move.passed?, h]
  noElse _ _ := rfl
  newline i h := by simp [Move.passed?, h]

/-! ### How many moves there are -/

theorem countP_steps {p : Move → Bool} (hp : ∀ k, p (step k) = false) (i n : Nat) :
    (steps step i n).countP p = 0 := by
  refine List.countP_eq_zero.2 fun m hm => ?_
  obtain ⟨k, -, -, rfl⟩ := exists_of_mem_steps hm
  simp [hp k]

/-- Every atom takes a lexeme, except for one at the end of what has failed. -/
theorem Trail.atoms_le (h : Trail tokens complete i ms j) :
    ms.countP Move.entersAtom + i ≤ j + (if complete then 0 else 1) := by
  have htakes : ∀ i n, (steps .take i n).countP Move.entersAtom = 0 := countP_steps fun _ => rfl
  have hpasses : ∀ i n, (steps .pass i n).countP Move.entersAtom = 0 := countP_steps fun _ => rfl
  induction h with
  | nil => simp
  | enter hpart _ ih => simpa [Move.entersAtom, hpart] using ih
  | pass _ _ ih =>
    simp only [List.countP_cons, Move.entersAtom, Bool.false_eq_true, if_false]
    omega
  | atom _ _ ih =>
    simp only [List.countP_cons, List.countP_append, htakes, Move.entersAtom, beq_self_eq_true,
      if_true]
    omega
  | noAtom =>
    simp only [List.countP_cons, htakes, Move.entersAtom, beq_self_eq_true, if_true,
      Bool.false_eq_true, if_false]
    omega
  | noElse _ _ _ _ ih =>
    simpa [Move.entersAtom, hpasses] using ih

/-- The number of parts that begin and of searches that end without an alternative. -/
def effort (ms : List Move) : Nat := ms.countP fun m => m.passed?.isNone

@[simp] theorem effort_nil : effort [] = 0 := rfl

@[simp] theorem effort_append (ms ms' : List Move) :
    effort (ms ++ ms') = effort ms + effort ms' := List.countP_append

@[simp] theorem effort_enter (part : Part) (i : Nat) (ms : List Move) :
    effort (.enter part i :: ms) = effort ms + 1 := List.countP_cons_of_pos rfl

@[simp] theorem effort_noElse (i back : Nat) (ms : List Move) :
    effort (.noElse i back :: ms) = effort ms + 1 := List.countP_cons_of_pos rfl

@[simp] theorem effort_pass (i : Nat) (ms : List Move) : effort (.pass i :: ms) = effort ms :=
  List.countP_cons_of_neg (by simp [Move.passed?])

@[simp] theorem effort_passes (i n : Nat) : effort (steps .pass i n) = 0 :=
  countP_steps (fun _ => rfl) i n

@[simp] theorem effort_takes (i n : Nat) : effort (steps .take i n) = 0 :=
  countP_steps (fun _ => rfl) i n

/-- Each lexeme is passed over once, and again after every search that leads back over it. -/
theorem Trail.length_le (h : Trail tokens complete i ms j) (hi : i ≤ tokens.length) :
    ms.length + i ≤ j + effort ms * (tokens.length + 1) := by
  induction h with
  | nil => simp
  | enter _ _ ih =>
    have := ih hi
    rw [List.length_cons, effort_enter, Nat.add_mul]
    omega
  | pass hlt _ ih =>
    have := ih hlt
    rw [List.length_cons, effort_pass]
    omega
  | atom hn _ ih =>
    have := ih hn
    rw [List.length_cons, List.length_append, length_steps, effort_enter, effort_append,
      effort_takes, Nat.zero_add, Nat.add_mul]
    omega
  | noAtom =>
    rw [List.length_cons, length_steps, effort_enter, effort_takes]
    omega
  -- going back costs as many moves as newlines were passed, and counts as an effort of its own
  | noElse hn _ _ _ ih =>
    have := ih hi
    rw [List.length_append, List.length_cons, length_steps, effort_append, effort_passes,
      Nat.zero_add, effort_noElse, Nat.add_mul]
    omega

end PipeLang.Parser
