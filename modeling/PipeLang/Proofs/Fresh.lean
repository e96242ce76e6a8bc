import PipeLang.Proofs.SideBySide

/-!
# Programs in a fresh environment

Two conclusions from running programs side by side.  With both standard operators exchanged at will,
it shows that a mode other than `PipeMode.auto` makes them the same
(`standard_operators_interchangeable`).  Of a program beside itself, it shows that nothing but the
targets outside of functions comes to be bound in the global frame (`global_names_are_set`).
-/

namespace PipeLang

/-! ### The standard operators -/

/-- Either operator of a standard pipe in the place of the other. -/
inductive PipeOp.Interchangeable : PipeOp → PipeOp → Prop
  | refl (op : PipeOp) : Interchangeable op op
  | standard_eager : Interchangeable .standard .eager
  | eager_standard : Interchangeable .eager .standard

/-- Programs that differ in standard operators are run alike, unless in the mode that asks them. -/
theorem fit_interchangeable {mode : PipeMode} (hmode : mode ≠ .auto) :
    Rules.Fit { mode, operator := PipeOp.Interchangeable } where
  refl := .refl
  kind h := by cases h <;> rfl
  isLazy h := by
    cases mode with
    | auto => exact absurd rfl hmode
    | eager | lazy => rfl
  allowed _ _ := trivial

/-- If a mode is forced, the two standard operators are interchangeable: a program in which each of
them is put in the place of the other at will prints the same from the start, and has an equal
value if that holds no function, or the same error up to texts that quote the program. -/
theorem standard_operators_interchangeable {source : String} {program swapped : List Expr}
    (hparse : parseProgram source = .ok program)
    (hswap : List.Forall₂ (Expr.Alike (.ofOperators PipeOp.Interchangeable)) program swapped)
    {mode : PipeMode} (hmode : mode ≠ .auto) (n : Nat) :
    let ran := (Evaluator.level n).evalStatements (globalEnv mode).1 program (globalEnv mode).2
    let ran' := (Evaluator.level n).evalStatements (globalEnv mode).1 swapped (globalEnv mode).2
    ran'.2.printed = ran.2.printed ∧
      Outcome.Alike (EvalError.Alike (Variation.ofOperators PipeOp.Interchangeable).Quotes)
        Value.SameData ran.1 ran'.1 := by
  intro ran ran'
  let R : Rules := { mode, operator := PipeOp.Interchangeable }
  have hpipes := pipesInfix_of_parseProgram hparse
  -- nothing is asked of what the programs set
  have hcode : List.Forall₂ (R.CodeIn (globalEnv mode).1) program swapped := by
    clear hparse ran ran'
    induction hswap with
    | nil => exact .nil
    | cons halike _ ih =>
      rw [List.forall_mem_cons] at hpipes
      exact .cons ⟨⟨halike, hpipes.1, fun _ => trivial⟩, fun _ _ _ => trivial⟩ (ih hpipes.2)
  obtain ⟨hstore, hend⟩ := Rules.ends_program (fit_interchangeable hmode) n hcode
  refine ⟨hstore.printed, ?_⟩
  change Outcome.Alike _ _ ran.1 ran'.1 at hend
  generalize ran.1 = r at hend ⊢
  generalize ran'.1 = r' at hend ⊢
  -- answers that correspond have the same data, as functions print without their code
  cases hend with
  | ok hv => exact .ok hv.sameData
  | error he => exact .error he
  | outOfFuel => exact .outOfFuel

/-- A step that nobody needs, with either operator. -/
theorem unread_step_interchanged :
    let program (op : String) (at_ : Nat) : List Expr := [
      .assign (.sym "f" ⟨0, 1⟩) (.lambda ["x"] (.lit (.int 2) ⟨17, 1⟩) ⟨5, 13⟩) .inner ⟨0, 18⟩,
      .call (.sym op ⟨28, at_⟩)
        [.call (.sym "print" ⟨19, 5⟩) [.lit (.int 1) ⟨25, 1⟩] ⟨19, 8⟩, .sym "f" ⟨29 + at_, 1⟩]
        ⟨19, 11 + at_⟩]
    let ran := (Evaluator.level 9).evalStatements (globalEnv .lazy).1 (program "%>%" 3)
      (globalEnv .lazy).2
    let ran' := (Evaluator.level 9).evalStatements (globalEnv .lazy).1 (program "%!>%" 4)
      (globalEnv .lazy).2
    ran.1 = .ok (.int 2) ∧ ran.2.printed = "" ∧ ran'.2.printed = ran.2.printed ∧
      Outcome.Alike (EvalError.Alike (Variation.ofOperators PipeOp.Interchangeable).Quotes)
        Value.SameData ran.1 ran'.1 := by
  intro program ran ran'
  have hscan : Scan.ofChars 0 "f <- function(x) 2\nprint(1) %>% f".toList = ⟨[
      ⟨.ident "f", ⟨0, 1⟩, "f"⟩, ⟨.leftArrow, ⟨2, 2⟩, "<-"⟩, ⟨.functionWord, ⟨5, 8⟩, "function"⟩,
      ⟨.leftParen, ⟨13, 1⟩, "("⟩, ⟨.ident "x", ⟨14, 1⟩, "x"⟩, ⟨.rightParen, ⟨15, 1⟩, ")"⟩,
      ⟨.int 2, ⟨17, 1⟩, "2"⟩, ⟨.newline, ⟨18, 1⟩, "\n"⟩, ⟨.ident "print", ⟨19, 5⟩, "print"⟩,
      ⟨.leftParen, ⟨24, 1⟩, "("⟩, ⟨.int 1, ⟨25, 1⟩, "1"⟩, ⟨.rightParen, ⟨26, 1⟩, ")"⟩,
      ⟨.special "%>%", ⟨28, 3⟩, "%>%"⟩, ⟨.ident "f", ⟨32, 1⟩, "f"⟩], none⟩ := by
    decide +kernel
  have hparse : parseProgram "f <- function(x) 2\nprint(1) %>% f" = .ok (program "%>%" 3) := by
    rw [parseProgram, lexCode?_of_ofChars hscan]
    rfl
  have hrefl := Variation.reflexive_ofOperators PipeOp.Interchangeable
  have hop : (Variation.ofOperators PipeOp.Interchangeable).symbol "%>%" "%!>%" :=
    Or.inr ⟨.standard, .eager, .standard_eager, rfl, rfl⟩
  refine ⟨rfl, rfl, standard_operators_interchangeable hparse ?_ (by decide) 9⟩
  exact .cons (.refl hrefl _) (.cons (.call (.sym hop _ _)
    (.cons (.refl hrefl _) (.cons (.sym (hrefl.symbol "f") _ _) .nil)) _ _) .nil)

/-! ### The global frame -/

theorem Fields.isSome_get?_of_mem_names {α : Type} {fields : Fields α} {name : String}
    (h : name ∈ fields.names) : (fields.get? name).isSome := by
  induction fields with
  | nil => cases h
  | cons entry rest ih =>
    obtain ⟨key, value⟩ := entry
    rw [get?]
    split
    · rfl
    · next hne => exact ih ((List.mem_cons.1 h).resolve_left fun heq => hne heq.symm)

/-- A program beside itself, if it has no assignments to outer variables. -/
theorem fit_sets (mode : PipeMode) (allowed : String → Prop) :
    Rules.Fit { mode, allowed, outer := False } where
  refl _ := rfl
  kind h := congrArg _ h
  isLazy h := congrArg (PipeMode.isLazy · mode) (congrArg _ h)
  allowed h := h.elim

/-- A program without assignments to outer variables binds no names in the global frame but those
that it assigns to outside of functions, with an arrow or as the left side of a compound link; and
that in every mode, and however it ends. -/
theorem global_names_are_set {source : String} {program : List Expr}
    (hparse : parseProgram source = .ok program) (houter : ∀ e ∈ program, e.reassigns = false)
    (mode : PipeMode) (n : Nat) {name : String}
    (hname : name ∈ ((Evaluator.level n).evalStatements (globalEnv mode).1 program
      (globalEnv mode).2).2.ownNames (globalEnv mode).1) : ∃ e ∈ program, e.Sets name := by
  let R : Rules := { mode, allowed := fun name => ∃ e ∈ program, e.Sets name, outer := False }
  have hpipes := pipesInfix_of_parseProgram hparse
  have hcode : List.Forall₂ (R.CodeIn (globalEnv mode).1) program program := by
    refine List.forall₂_same.2 fun e he => ?_
    have halike : e.Alike R.variation e := .refl (Variation.reflexive_ofOperators _) e
    exact ⟨⟨halike, hpipes e he, fun h => Bool.false_ne_true ((houter e he).symm.trans h)⟩,
      fun _ name hname => ⟨e, he, hname⟩⟩
  let t : Store :=
    ((Evaluator.level n).evalStatements (globalEnv mode).1 program (globalEnv mode).2).2
  have hstore : R.simulation.Corresponds false t t :=
    (Rules.ends_program (fit_sets mode _) n hcode).1
  obtain ⟨b, hb⟩ := Option.isSome_iff_exists.1 (Fields.isSome_get?_of_mem_names hname)
  have hbinding : t.binding? globalFrame name = some b := hb
  have hslot := hstore.bindings globalFrame name
  rw [hbinding] at hslot
  -- nothing but what the program sets can be bound there
  cases hslot with
  | some hslot =>
    cases hslot with
    | builtin hframe => exact absurd hframe Rules.global_ne_builtin
    | other _ _ hglobal => exact (hglobal rfl).resolve_right fun h => Bool.false_ne_true h.1

/-- A parameter and an assignment in a function, called by a chain that is run step by step. -/
theorem function_is_set_alone :
    let program : List Expr := [
      .assign (.sym "f" ⟨0, 1⟩)
        (.lambda ["x"] (.paren (.assign (.sym "y" ⟨18, 1⟩) (.sym "x" ⟨23, 1⟩) .inner ⟨18, 6⟩)
          ⟨17, 8⟩) ⟨5, 20⟩) .inner ⟨0, 25⟩,
      .call (.sym "%!>%" ⟨28, 4⟩) [.lit (.int 2) ⟨26, 1⟩, .sym "f" ⟨33, 1⟩] ⟨26, 8⟩]
    let ran := (Evaluator.level 9).evalStatements (globalEnv .eager).1 program (globalEnv .eager).2
    ran.1 = .ok (.int 2) ∧ ran.2.ownNames (globalEnv .eager).1 = ["f"] ∧
      ∃ e ∈ program, e.Sets "f" := by
  intro program ran
  have hscan : Scan.ofChars 0 "f <- function(x) (y <- x)\n2 %!>% f".toList = ⟨[
      ⟨.ident "f", ⟨0, 1⟩, "f"⟩, ⟨.leftArrow, ⟨2, 2⟩, "<-"⟩, ⟨.functionWord, ⟨5, 8⟩, "function"⟩,
      ⟨.leftParen, ⟨13, 1⟩, "("⟩, ⟨.ident "x", ⟨14, 1⟩, "x"⟩, ⟨.rightParen, ⟨15, 1⟩, ")"⟩,
      ⟨.leftParen, ⟨17, 1⟩, "("⟩, ⟨.ident "y", ⟨18, 1⟩, "y"⟩, ⟨.leftArrow, ⟨20, 2⟩, "<-"⟩,
      ⟨.ident "x", ⟨23, 1⟩, "x"⟩, ⟨.rightParen, ⟨24, 1⟩, ")"⟩, ⟨.newline, ⟨25, 1⟩, "\n"⟩,
      ⟨.int 2, ⟨26, 1⟩, "2"⟩, ⟨.special "%!>%", ⟨28, 4⟩, "%!>%"⟩, ⟨.ident "f", ⟨33, 1⟩, "f"⟩],
      none⟩ := by
    decide +kernel
  have hparse : parseProgram "f <- function(x) (y <- x)\n2 %!>% f" = .ok program := by
    rw [parseProgram, lexCode?_of_ofChars hscan]
    rfl
  have hnames : ran.2.ownNames (globalEnv .eager).1 = ["f"] := rfl
  refine ⟨rfl, hnames, global_names_are_set hparse ?_ .eager 9 (hnames ▸ List.mem_singleton_self _)⟩
  exact List.forall_mem_cons.2 ⟨rfl, List.forall_mem_singleton.2 rfl⟩

end PipeLang
