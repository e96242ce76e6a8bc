import PipeLang.Eval.Expr

/-!
# What unrolling a chain evaluates

A chain is written as a head and the pipes after it (`Expr.piped`).  Unrolling it evaluates the
right sides in parentheses, except those of dollar pipes, from the last one to the first, and
nothing else (`unroll_evaluates_escapes`); what it comes to is the head, the step of each pipe with
the values in their places (`stepsWith`), and the left side of the compound pipe.

* `Chain.ofPipe_piped` takes such a chain apart again into its links.
* `Evaluator.unrollLinks_linksOf` is the same fact about the links alone, by induction on the pipes.
-/

namespace PipeLang

/-! ### Chains as they are written -/

/-- Whether the expression is one in parentheses. -/
def Expr.isParen : Expr → Bool
  | .paren .. => true
  | _ => false

/-- An operator and its right side, after some expression. -/
structure Pipe where
  op : PipeOp
  /-- Where the operator stands. -/
  opSpan : Span
  right : Expr
  /-- Where the whole stands, the left side included. -/
  span : Span

/-- The expression with the pipe after it. -/
def Expr.pipedInto (left : Expr) (p : Pipe) : Expr :=
  .call (.sym p.op.name p.opSpan) [left, p.right] p.span

/-- The expression with some pipes after it, one after the other. -/
def Expr.piped (head : Expr) (pipes : List Pipe) : Expr := pipes.foldl pipedInto head

namespace Pipe

/-- The link of the pipe after this left side. -/
def link (p : Pipe) (left : Expr) : Link := ⟨p.op.kind, left, p.right⟩

/-- The step of the pipe, its right side as it stands. -/
def step (p : Pipe) : Expr := p.op.kind.step p.right

/-- Whether the right side is a value that is spliced in: it stands in parentheses, and the pipe
is no dollar pipe. -/
def isEscaped (p : Pipe) : Bool := p.op != .dollar && p.right.isParen

/-- The right sides that are spliced in as values, in written order. -/
def escapes (pipes : List Pipe) : List Expr := (pipes.filter isEscaped).map right

/-- How many of the pipes are compound. -/
def compounds (pipes : List Pipe) : Nat := pipes.countP (·.op = .compound)

/-- The steps of the pipes, the nodes in the places of the escaped right sides. -/
def stepsWith : List Pipe → List Expr → List Expr
  | [], _ => []
  | p :: rest, nodes =>
    if p.isEscaped then p.op.kind.step (nodes.headD p.right) :: stepsWith rest nodes.tail
    else p.step :: stepsWith rest nodes

/-- The links of the pipes after a head. -/
def linksOf (head : Expr) : List Pipe → List Link
  | [] => []
  | p :: rest => p.link head :: linksOf (head.pipedInto p) rest

/-- The left side of the first compound pipe. -/
def target? (head : Expr) : List Pipe → Option Expr
  | [] => none
  | p :: rest => if p.op = .compound then some head else target? (head.pipedInto p) rest

/-! ### Pieces of a chain -/

variable {head : Expr} {p : Pipe} {pipes rest : List Pipe}

@[simp] theorem compounds_nil : compounds [] = 0 := rfl

theorem compounds_cons_of_compound (h : p.op = .compound) :
    compounds (p :: rest) = compounds rest + 1 := by
  simp [compounds, h]

theorem compounds_cons_of_ne (h : p.op ≠ .compound) : compounds (p :: rest) = compounds rest := by
  simp [compounds, h]

/-- A chain has at least as many compound operators as what follows its first one. -/
theorem compounds_le_cons (p : Pipe) (rest : List Pipe) :
    compounds rest ≤ compounds (p :: rest) := by
  by_cases hp : p.op = .compound
  · rw [compounds_cons_of_compound hp]
    exact Nat.le_succ _
  · exact Nat.le_of_eq (compounds_cons_of_ne hp).symm

/-- A chain without a compound operator assigns to nothing. -/
theorem target?_eq_none (h : compounds pipes = 0) : target? head pipes = none := by
  induction pipes generalizing head with
  | nil => rfl
  | cons p rest ih =>
    by_cases hp : p.op = .compound
    · rw [compounds_cons_of_compound hp] at h
      omega
    · rw [compounds_cons_of_ne hp] at h
      rw [target?, if_neg hp, ih h]

/-- The first compound pipe is found, and its left side is all that stands before it. -/
theorem target?_append_cons (hrest : compounds rest = 0) (hp : p.op = .compound)
    (after : List Pipe) : target? head (rest ++ p :: after) = some (head.piped rest) := by
  induction rest generalizing head with
  | nil => exact if_pos hp
  | cons q rest ih =>
    have hq : q.op ≠ .compound := by
      intro hq
      rw [compounds_cons_of_compound hq] at hrest
      omega
    rw [compounds_cons_of_ne hq] at hrest
    rw [List.cons_append, target?, if_neg hq, ih hrest]
    rfl

/-- One with a compound operator has a target. -/
theorem exists_target?_of_compounds_ne_zero (h : compounds pipes ≠ 0) (head : Expr) :
    ∃ target, target? head pipes = some target := by
  induction pipes generalizing head with
  | nil => exact absurd rfl h
  | cons p rest ih =>
    by_cases hp : p.op = .compound
    · exact ⟨head, if_pos hp⟩
    · rw [compounds_cons_of_ne hp] at h
      obtain ⟨target, htarget⟩ := ih h (head.pipedInto p)
      exact ⟨target, (if_neg hp).trans htarget⟩

theorem escapes_cons_of_escaped (h : p.isEscaped) :
    escapes (p :: rest) = p.right :: escapes rest := by
  simp [escapes, h]

theorem escapes_cons_of_not_escaped (h : ¬ p.isEscaped) : escapes (p :: rest) = escapes rest := by
  simp [escapes, h]

/-- The escapes of a longer chain are those of its first part and then those of the rest. -/
theorem escapes_append (first rest : List Pipe) :
    escapes (first ++ rest) = escapes first ++ escapes rest := by
  simp [escapes]

theorem stepsWith_cons_of_escaped (h : p.isEscaped) (node : Expr) (nodes : List Expr) :
    stepsWith (p :: rest) (node :: nodes) = p.op.kind.step node :: stepsWith rest nodes :=
  if_pos h

theorem stepsWith_cons_of_not_escaped (h : ¬ p.isEscaped) (nodes : List Expr) :
    stepsWith (p :: rest) nodes = p.step :: stepsWith rest nodes :=
  if_neg h

/-- Without escapes the steps are those of the right sides as they stand. -/
theorem stepsWith_of_escapes_eq_nil (h : escapes pipes = []) (nodes : List Expr) :
    stepsWith pipes nodes = pipes.map step := by
  induction pipes with
  | nil => rfl
  | cons p rest ih =>
    by_cases hp : p.isEscaped
    · rw [escapes_cons_of_escaped hp] at h
      cases h
    · rw [escapes_cons_of_not_escaped hp] at h
      rw [stepsWith_cons_of_not_escaped hp, ih h, List.map_cons]

/-- The links of the second part have the first part of the chain on their left. -/
theorem linksOf_append (head : Expr) (first rest : List Pipe) :
    linksOf head (first ++ rest) = linksOf head first ++ linksOf (head.piped first) rest := by
  induction first generalizing head with
  | nil => rfl
  | cons p first ih =>
    rw [List.cons_append, linksOf, ih, linksOf, List.cons_append]
    rfl

end Pipe

/-! ### Taking a chain apart -/

@[simp] theorem Expr.pipeKind?_pipedInto (left : Expr) (p : Pipe) :
    (left.pipedInto p).pipeKind? = some p.op.kind := by
  simp [Expr.pipedInto, Expr.pipeKind?, Expr.callOp?, PipeOp.ofName?_name]

namespace Chain

open Pipe

/-- What is no pipe is the head of its chain. -/
theorem leading_of_none {e : Expr} (h : e.pipeKind? = none) (links : List Link) :
    leading e links = ⟨some e, links⟩ := by
  unfold leading
  simp only [h]

/-- A pipe of two arguments gives a link, and its left side is taken apart in turn. -/
theorem leading_of_some {func left right : Expr} {s : Span} {kind : PipeKind}
    (h : (Expr.call func [left, right] s).pipeKind? = some kind) (links : List Link) :
    leading (.call func [left, right] s) links =
      leading left (⟨kind, left, right⟩ :: links) := by
  rw [leading.eq_def]
  simp only [h]

/-- A pipe that is called on any other number of arguments leaves no head. -/
theorem leading_of_other {e : Expr} {kind : PipeKind} (h : e.pipeKind? = some kind)
    (hcall : ∀ func left right s, e ≠ .call func [left, right] s) (links : List Link) :
    leading e links = ⟨none, links⟩ := by
  rw [leading.eq_def]
  simp only [h]

/-- Of some pipes after any left side, the links are those of the left side and then their own. -/
theorem leading_piped (left : Expr) (pipes : List Pipe) (links : List Link) :
    leading (left.piped pipes) links = leading left (linksOf left pipes ++ links) := by
  induction pipes generalizing left with
  | nil => rfl
  | cons p rest ih =>
    exact (ih (left.pipedInto p)).trans (leading_of_some (left.pipeKind?_pipedInto p) _)

/-- The links of a pipe are those of its left side and the last one. -/
theorem ofPipe_eq (left : Expr) (pipes : List Pipe) (last : Pipe) :
    ofPipe last.op.kind (left.piped pipes) last.right =
      leading left (linksOf left (pipes ++ [last])) := by
  rw [ofPipe, leading_piped, linksOf_append]
  rfl

/-- The links of a chain are those of its pipes, in written order, if its head is no pipe. -/
theorem ofPipe_piped {head : Expr} (hhead : head.pipeKind? = none) (pipes : List Pipe)
    (last : Pipe) :
    ofPipe last.op.kind (head.piped pipes) last.right =
      ⟨some head, linksOf head (pipes ++ [last])⟩ := by
  rw [ofPipe_eq, leading_of_none hhead]

end Chain

/-! ### Evaluating the escapes -/

namespace Evaluator

open Pipe

variable (ev : Evaluator) {env : Env} {head : Expr} {p : Pipe} {pipes rest : List Pipe}

/-- The values of some expressions, each put into an inline node before the next expression is
evaluated. -/
def spliceAll (env : Env) (es : List Expr) : Eval (List Expr) :=
  es.mapM fun e => do Eval.splice (← ev.eval env e) e.span

/-- An escaped operand is evaluated, and a node for its value put in its place. -/
theorem operand_of_escaped (h : p.isEscaped) :
    ev.operand env (p.link head) = (do Eval.splice (← ev.eval env p.right) p.right.span) := by
  obtain ⟨hop, hparen⟩ : p.op ≠ .dollar ∧ p.right.isParen := by simpa [isEscaped] using h
  have hkind : (p.link head).kind ≠ .dollar := by
    show p.op.kind ≠ .dollar
    revert hop
    cases p.op <;> simp [PipeOp.kind]
  rw [operand, if_neg hkind]
  show ev.escape env p.right = _
  cases hright : p.right <;> simp_all [Expr.isParen, escape]

/-- Any other operand is taken as it is written. -/
theorem operand_of_not_escaped (h : ¬ p.isEscaped) :
    ev.operand env (p.link head) = pure p.right := by
  have hescaped : p.op = .dollar ∨ ¬ p.right.isParen := by
    by_cases hop : p.op = .dollar
    · exact .inl hop
    · exact .inr (by simpa [isEscaped, hop] using h)
  rw [operand]
  rcases hescaped with hop | hparen
  · have hkind : (p.link head).kind = .dollar := by
      show p.op.kind = .dollar
      rw [hop]
      rfl
    rw [if_pos hkind]
    rfl
  · split
    · rfl
    · show ev.escape env p.right = _
      cases hright : p.right <;> simp_all [Expr.isParen, escape]

/-- Of two lists of expressions the first one is evaluated and spliced first. -/
theorem spliceAll_append (as bs : List Expr) :
    ev.spliceAll env (as ++ bs) = (do
      let xs ← ev.spliceAll env as
      let ys ← ev.spliceAll env bs
      pure (xs ++ ys)) :=
  List.mapM_append

theorem spliceAll_singleton (e : Expr) :
    ev.spliceAll env [e] = (do
      let v ← ev.eval env e
      let node ← Eval.splice v e.span
      pure [node]) := by
  simp [spliceAll]

/-- One more link in front of links that have been unrolled. -/
theorem unrollLinks_link {links : List Link} {nodes : Eval (List Expr)}
    {steps : List Expr → List Expr} (h : compounds (p :: rest) ≤ 1)
    (hlinks : ev.unrollLinks env links = (do
      let ns ← nodes
      pure (steps ns, Pipe.target? (head.pipedInto p) rest))) :
    ev.unrollLinks env (p.link head :: links) = (do
      let ns ← nodes
      let right ← ev.operand env (p.link head)
      pure (p.op.kind.step right :: steps ns, Pipe.target? head (p :: rest))) := by
  rw [unrollLinks, hlinks]
  simp only [bind_assoc, pure_bind]
  -- a compound link makes its left side the target, and there is none in the rest
  by_cases hp : p.op = .compound
  · rw [compounds_cons_of_compound hp] at h
    have hrest : Pipe.target? (head.pipedInto p) rest = none := target?_eq_none (by omega)
    have hkind : (p.link head).kind = .compound := congrArg PipeOp.kind hp
    rw [hrest, Pipe.target?, if_pos hp, hkind, hp]
    rfl
  · have hkind : (p.link head).kind ≠ .compound := by
      show p.op.kind ≠ .compound
      revert hp
      cases p.op <;> simp [PipeOp.kind]
    rw [Pipe.target?, if_neg hp]
    refine bind_congr fun ns => bind_congr fun right => ?_
    split
    · next hk _ => exact absurd hk hkind
    · next hk _ => exact absurd hk hkind
    · rfl

/-- The links of a chain with at most one compound pipe, unrolled: the escapes are evaluated from
the last one to the first. -/
theorem unrollLinks_linksOf (h : compounds pipes ≤ 1) :
    ev.unrollLinks env (linksOf head pipes) = (do
      let nodes ← ev.spliceAll env (escapes pipes).reverse
      pure (stepsWith pipes nodes.reverse, Pipe.target? head pipes)) := by
  induction pipes generalizing head with
  | nil => rfl
  | cons p rest ih =>
    have hrest : compounds rest ≤ 1 := Nat.le_trans (compounds_le_cons p rest) h
    rw [linksOf, ev.unrollLinks_link h (ih hrest)]
    by_cases hp : p.isEscaped
    -- the right side of the new link is evaluated after all those that stand behind it
    · rw [escapes_cons_of_escaped hp, List.reverse_cons, spliceAll_append, spliceAll_singleton,
        operand_of_escaped ev hp]
      simp only [bind_assoc, pure_bind, List.reverse_append, List.reverse_singleton,
        List.singleton_append, stepsWith_cons_of_escaped hp]
    · rw [escapes_cons_of_not_escaped hp, operand_of_not_escaped ev hp]
      simp only [pure_bind, stepsWith_cons_of_not_escaped hp, Pipe.step]

/-- A whole chain with at most one compound pipe, unrolled. -/
theorem unroll_piped (hhead : head.pipeKind? = none) (before : List Pipe) (last : Pipe)
    (h : compounds (before ++ [last]) ≤ 1) :
    ev.unroll env (some last.op.kind) (head.piped before) last.right = (do
      let nodes ← ev.spliceAll env (escapes (before ++ [last])).reverse
      pure ⟨head :: stepsWith (before ++ [last]) nodes.reverse,
        Pipe.target? head (before ++ [last])⟩) := by
  rw [unroll, Chain.ofPipe_piped hhead]
  simp only [ev.unrollLinks_linksOf h, bind_assoc, pure_bind]

end Evaluator

/-! ### Whole chains -/

open Pipe in
/-- Unrolling a chain with at most one compound pipe, whatever evaluates its expressions: the
right sides in parentheses, except those of dollar pipes, are evaluated from the last one to the
first, each put into an inline node before the next one is evaluated; then the chain is its head
and the steps, with these nodes in their places, and its target is all that stands to the left of
the compound pipe.  The first escape that fails ends it with that error in the store that it has
left, and without any escape the store is not even looked at. -/
theorem unroll_evaluates_escapes (ev : Evaluator) (env : Env) {head : Expr}
    (hhead : head.pipeKind? = none) (before : List Pipe) (last : Pipe) {pipes : List Pipe}
    (hpipes : pipes = before ++ [last]) (hcompounds : compounds pipes ≤ 1) :
    (ev.unroll env (some last.op.kind) (head.piped before) last.right = do
      let nodes ← ev.spliceAll env (escapes pipes).reverse
      pure ⟨head :: stepsWith pipes nodes.reverse, target? head pipes⟩) ∧
    (∀ done e left s nodes t err u, (escapes pipes).reverse = done ++ e :: left →
      ev.spliceAll env done s = (.ok nodes, t) → ev.eval env e t = (.error err, u) →
        ev.unroll env (some last.op.kind) (head.piped before) last.right s = (.error err, u)) ∧
    (escapes pipes = [] → ∀ s,
      ev.unroll env (some last.op.kind) (head.piped before) last.right s =
        (.ok ⟨head :: pipes.map step, target? head pipes⟩, s)) ∧
    (∀ first p rest, pipes = first ++ p :: rest → p.op = .compound →
      target? head pipes = some (head.piped first)) ∧
    (compounds pipes = 0 → target? head pipes = none) := by
  have hunroll : ev.unroll env (some last.op.kind) (head.piped before) last.right = (do
      let nodes ← ev.spliceAll env (escapes pipes).reverse
      pure ⟨head :: stepsWith pipes nodes.reverse, target? head pipes⟩) := by
    subst hpipes
    exact ev.unroll_piped hhead before last hcompounds
  refine ⟨hunroll, ?_, fun hnone s => ?_, ?_, target?_eq_none⟩
  -- the first failure in the order of evaluation is the outcome
  · intro done e left s nodes t err u hsplit hdone herr
    have hfails : ev.spliceAll env (e :: left) t = (.error err, u) := by
      rw [Evaluator.spliceAll, List.mapM_cons, bind_assoc]
      exact Eval.bind_of_error herr
    have hall : ev.spliceAll env (escapes pipes).reverse s = (.error err, u) := by
      rw [hsplit, ev.spliceAll_append, Eval.bind_of_ok hdone]
      exact Eval.bind_of_error hfails
    rw [hunroll]
    exact Eval.bind_of_error hall
  · rw [hunroll, hnone]
    show (Outcome.ok _, s) = _
    rw [stepsWith_of_escapes_eq_nil hnone]
  · rintro first p rest rfl hp
    -- before the one compound operator there is no other
    refine target?_append_cons ?_ hp rest
    have hcount : compounds (first ++ p :: rest) = compounds first + compounds (p :: rest) :=
      List.countP_append
    rw [compounds_cons_of_compound hp] at hcount
    omega

/-- Three pipes with right sides in parentheses: the last one is evaluated first, the one of the
dollar pipe not at all, and an unbound name at the end keeps the others from being evaluated. -/
theorem escapes_of_three_pipes :
    let number (n : Int64) : Expr := .paren (.lit (.int n) .nowhere) .nowhere
    let pipe (op : PipeOp) (right : Expr) : Pipe := ⟨op, .nowhere, right, .nowhere⟩
    let x : Expr := .sym "x" .nowhere
    let before : List Pipe := [pipe .compound (number 1), pipe .dollar (number 2)]
    let node (label : String) (i : Nat) : Expr := .inline label ⟨i⟩ .nowhere
    let env : Env := ⟨⟨0⟩, [], .auto⟩
    (Evaluator.level 2).unroll env (some .tee) (x.piped before) (number 3) .empty =
      (.ok ⟨[x, (node "1" 1).asPipeCall, (number 2).asDollarCall, (node "3" 0).asTeeCall], some x⟩,
        (Store.empty.addInline (.int 3)).addInline (.int 1)) ∧
    (Evaluator.level 2).unroll env (some .tee) (x.piped before)
      (.paren (.sym "y" .nowhere) .nowhere) .empty = (.error (.unbound "y"), .empty) := by
  intro number pipe x before node env
  have hhead : x.pipeKind? = none := rfl
  have hchain := fun right => unroll_evaluates_escapes (.level 2) env hhead before
    (pipe .tee right) rfl (Nat.le_refl 1)
  refine ⟨?_, ?_⟩
  · obtain ⟨hunroll, -⟩ := hchain (number 3)
    exact (congrFun hunroll _).trans rfl
  · obtain ⟨-, hfails, -⟩ := hchain (.paren (.sym "y" .nowhere) .nowhere)
    exact hfails [] _ [number 1] .empty [] .empty _ _ rfl rfl rfl

end PipeLang
