import PipeLang.Proofs.Demand

/-!
# First-order expressions

A first-order expression is put together from literals, names of plain values, the placeholder,
and calls of builtins that compute their answer from their arguments alone.  Its evaluation writes
nothing of its own, and all it reads are the values of its names and of the placeholder.

So any relation between computations that goes through sequences relates its evaluations in two
places, if it relates those of its names there (`Calculation.related`).  In particular its outcome
is the same in any two places that offer the same values (`FirstOrder.mirrors`).  One of the places
may be such that the placeholder is a deferred value there: then the demand of it changes the store,
and all that is asked is that the store stays a good one.
-/

namespace PipeLang

/-- The builtin computes its answer from its arguments alone. -/
def Native.Computes (n : Native) : Prop := n ∉ [print, map, filter, freduce]

instance : DecidablePred Native.Computes := fun n =>
  inferInstanceAs (Decidable (n ∉ [Native.print, .map, .filter, .freduce]))

/-- First-order expressions in an environment, with the names that it binds to plain values; the
placeholder is among them if a value arrives. -/
inductive FirstOrder (s : Store) (env : Env) (arrives : Prop) : Expr → Prop
  | lit (literal : Literal) (span : Span) : FirstOrder s env arrives (.lit literal span)
  | arrival (h : arrives) (span : Span) : FirstOrder s env arrives (.sym placeholder span)
  | name {name : String} {v : Value} (hname : name ≠ placeholder)
      (hbare : unqualified? name = none) (hbound : s.find? env name = some (.value v))
      (span : Span) : FirstOrder s env arrives (.sym name span)
  | paren {e : Expr} (he : FirstOrder s env arrives e) (span : Span) :
      FirstOrder s env arrives (.paren e span)
  | block {stmts : List Expr} (hstmts : ∀ e ∈ stmts, FirstOrder s env arrives e) (span : Span) :
      FirstOrder s env arrives (.block stmts span)
  | list {items : List Expr} (hitems : ∀ e ∈ items, FirstOrder s env arrives e) (span : Span) :
      FirstOrder s env arrives (.list items span)
  | record {fields : List (String × Expr)}
      (hfields : ∀ field ∈ fields, FirstOrder s env arrives field.2) (span : Span) :
      FirstOrder s env arrives (.record fields span)
  | field {e : Expr} (he : FirstOrder s env arrives e) (name : String) (span : Span) :
      FirstOrder s env arrives (.field e name span)
  | ifThen {cond yes : Expr} (hcond : FirstOrder s env arrives cond)
      (hyes : FirstOrder s env arrives yes) (span : Span) :
      FirstOrder s env arrives (.ifThen cond yes span)
  | ifElse {cond yes no : Expr} (hcond : FirstOrder s env arrives cond)
      (hyes : FirstOrder s env arrives yes) (hno : FirstOrder s env arrives no) (span : Span) :
      FirstOrder s env arrives (.ifElse cond yes no span)
  | call {name : String} {n : Native} {args : List Expr} (hname : name ≠ placeholder)
      (hbare : unqualified? name = none) (hbound : s.find? env name = some (.value (.native n)))
      (hn : n.Computes) (hargs : ∀ e ∈ args, FirstOrder s env arrives e) (at_ span : Span) :
      FirstOrder s env arrives (.call (.sym name at_) args span)

/-- First-order expressions in a wider sense: names may be qualified, and whatever the placeholder
is bound to, the expression may ask for it. -/
inductive Calculation (s : Store) (env : Env) : Expr → Prop
  | lit (literal : Literal) (span : Span) : Calculation s env (.lit literal span)
  | name {name : String}
      (hbound : name = placeholder ∨ ∃ v, s.resolve env name = .ok (.value v)) (span : Span) :
      Calculation s env (.sym name span)
  | paren {e : Expr} (he : Calculation s env e) (span : Span) : Calculation s env (.paren e span)
  | block {stmts : List Expr} (hstmts : ∀ e ∈ stmts, Calculation s env e) (span : Span) :
      Calculation s env (.block stmts span)
  | list {items : List Expr} (hitems : ∀ e ∈ items, Calculation s env e) (span : Span) :
      Calculation s env (.list items span)
  | record {fields : List (String × Expr)} (hfields : ∀ field ∈ fields, Calculation s env field.2)
      (span : Span) : Calculation s env (.record fields span)
  | field {e : Expr} (he : Calculation s env e) (name : String) (span : Span) :
      Calculation s env (.field e name span)
  | ifThen {cond yes : Expr} (hcond : Calculation s env cond) (hyes : Calculation s env yes)
      (span : Span) : Calculation s env (.ifThen cond yes span)
  | ifElse {cond yes no : Expr} (hcond : Calculation s env cond) (hyes : Calculation s env yes)
      (hno : Calculation s env no) (span : Span) : Calculation s env (.ifElse cond yes no span)
  | call {name : String} {n : Native} {args : List Expr} (hname : name ≠ placeholder)
      (hbound : s.resolve env name = .ok (.value (.native n))) (hn : n.Computes)
      (hargs : ∀ e ∈ args, Calculation s env e) (at_ span : Span) :
      Calculation s env (.call (.sym name at_) args span)

namespace Calculation

variable {s t : Store} {env scope : Env} {e : Expr}

/-- What is evaluated within such an expression is one. -/
theorem parts (he : Calculation s env e) : ∀ part ∈ e.parts, Calculation s env part := by
  cases he with
  | lit | name => simp [Expr.parts]
  | paren he | field he => simpa [Expr.parts] using he
  | block hes | list hes => exact hes
  | record hfields =>
    intro part hpart
    obtain ⟨field, hfield, rfl⟩ := List.mem_map.1 hpart
    exact hfields field hfield
  | ifThen hcond hyes => simpa [Expr.parts] using ⟨hcond, hyes⟩
  | ifElse hcond hyes hno => simpa [Expr.parts] using ⟨hcond, hyes, hno⟩
  | call hname hbound _ hargs at_ =>
    exact List.forall_mem_cons.2 ⟨.name (.inr ⟨_, hbound⟩) at_, hargs⟩

/-- Only what the names other than the placeholder refer to matters. -/
theorem of_resolve_eq (he : Calculation s env e)
    (h : ∀ name, name ≠ placeholder → t.resolve scope name = s.resolve env name) :
    Calculation t scope e := by
  induction he with
  | lit literal span => exact .lit literal span
  | @name name hbound span =>
    by_cases hname : name = placeholder
    · exact .name (.inl hname) span
    · refine .name (.inr ?_) span
      rw [h name hname]
      exact hbound.resolve_left hname
  | paren _ span ih => exact .paren ih span
  | block _ span ih => exact .block ih span
  | list _ span ih => exact .list ih span
  | record _ span ih => exact .record ih span
  | field _ name span ih => exact .field ih name span
  | ifThen _ _ span ihcond ihyes => exact .ifThen ihcond ihyes span
  | ifElse _ _ _ span ihcond ihyes ihno => exact .ifElse ihcond ihyes ihno span
  | call hname hbound hn _ at_ span ih =>
    exact .call hname ((h _ hname).trans hbound) hn ih at_ span

end Calculation

namespace FirstOrder

variable {s : Store} {env : Env} {arrives : Prop}

/-- Where the arrival is a value, a first-order expression is a calculation. -/
theorem calculation {e : Expr} (he : FirstOrder s env arrives e) : Calculation s env e := by
  induction he with
  | lit literal span => exact .lit literal span
  | arrival _ span => exact .name (.inl rfl) span
  | name _ hbare hbound span => exact .name (.inr ⟨_, Store.resolve_of_find? hbare hbound⟩) span
  | paren _ span ih => exact .paren ih span
  | block _ span ih => exact .block ih span
  | list _ span ih => exact .list ih span
  | record _ span ih => exact .record ih span
  | field _ name span ih => exact .field ih name span
  | ifThen _ _ span ihcond ihyes => exact .ifThen ihcond ihyes span
  | ifElse _ _ _ span ihcond ihyes ihno => exact .ifElse ihcond ihyes ihno span
  | call hname hbare hbound hn _ at_ span ih =>
    exact .call hname (Store.resolve_of_find? hbare hbound) hn ih at_ span

/-- What is evaluated within a first-order expression is first-order. -/
theorem parts {e : Expr} (he : FirstOrder s env arrives e) :
    ∀ part ∈ e.parts, FirstOrder s env arrives part := by
  cases he with
  | lit | arrival | name => simp [Expr.parts]
  | paren he | field he => simpa [Expr.parts] using he
  | block hes | list hes => exact hes
  | record hfields =>
    intro part hpart
    obtain ⟨field, hfield, rfl⟩ := List.mem_map.1 hpart
    exact hfields field hfield
  | ifThen hcond hyes => simpa [Expr.parts] using ⟨hcond, hyes⟩
  | ifElse hcond hyes hno => simpa [Expr.parts] using ⟨hcond, hyes, hno⟩
  | call hname hbare hbound _ hargs at_ =>
    exact List.forall_mem_cons.2 ⟨.name hname hbare hbound at_, hargs⟩

end FirstOrder

/-! ### Relations between computations -/

namespace Eval

/-- A relation between computations that goes through sequences of them. -/
structure Compositional (rel : ∀ {α : Type}, Eval α → Eval α → Prop) : Prop where
  ofExcept : ∀ {α : Type} (x : Except EvalError α), rel (Eval.ofExcept x) (Eval.ofExcept x)
  bind : ∀ {α β : Type} {x y : Eval α} {f g : α → Eval β}, rel x y → (∀ a, rel (f a) (g a)) →
    rel (x >>= f) (y >>= g)

/-- A compositional relation to which what gives up does not matter: it is related to
everything. -/
structure Sequential (rel : ∀ {α : Type}, Eval α → Eval α → Prop) : Prop
    extends Compositional rel where
  giveUp : ∀ {α : Type} {y : Eval α}, rel Eval.giveUp y

namespace Compositional

variable {rel : ∀ {α : Type}, Eval α → Eval α → Prop} {α β γ : Type}

theorem pure (hrel : Compositional rel) (a : α) : rel (Pure.pure a) (Pure.pure a) :=
  hrel.ofExcept (.ok a)

/-- What is done to each item of a list may be related item by item. -/
theorem mapM (hrel : Compositional rel) {f g : γ → Eval α} {items : List γ}
    (h : ∀ c ∈ items, rel (f c) (g c)) : rel (items.mapM f) (items.mapM g) := by
  induction items with
  | nil => exact hrel.pure []
  | cons c rest ih =>
    rw [List.mapM_cons, List.mapM_cons]
    refine hrel.bind (h c (by simp)) fun a => ?_
    exact hrel.bind (ih fun d hd => h d (by simp [hd])) fun as => hrel.pure (a :: as)

/-- So may what is done to a list from an initial value on. -/
theorem foldlM (hrel : Compositional rel) {f g : α → γ → Eval α} {items : List γ} (a : α)
    (h : ∀ a, ∀ c ∈ items, rel (f a c) (g a c)) : rel (items.foldlM f a) (items.foldlM g a) := by
  induction items generalizing a with
  | nil => exact hrel.pure a
  | cons c rest ih =>
    rw [List.foldlM_cons, List.foldlM_cons]
    exact hrel.bind (h a c (by simp)) fun b => ih b fun a d hd => h a d (by simp [hd])

/-- A truth value is asked for and used. -/
theorem bindBool (hrel : Compositional rel) {x y : Eval Value} {f g : Bool → Eval α} (hx : rel x y)
    (h : ∀ truth, rel (f truth) (g truth)) :
    rel (do let v ← x; let truth ← v.asBool; f truth)
      (do let v ← y; let truth ← v.asBool; g truth) :=
  hrel.bind hx fun v => hrel.bind (hrel.ofExcept v.asBool) h

end Compositional

end Eval

/-! ### Computations that mirror one another -/

namespace Eval

variable {α β : Type} {s : Store} {good : Store → Prop}

/-- From every good store the computation has this outcome and comes back to a good store. -/
def Settles (good : Store → Prop) (x : Eval α) (r : Outcome EvalError α) : Prop :=
  ∀ t, good t → ∃ t', x t = (r, t') ∧ good t'

/-- The first computation only reads one store, and what comes out of it there comes out of the
second one in every good store, unless the first one gives up. -/
def Mirrors (s : Store) (good : Store → Prop) (x y : Eval α) : Prop :=
  ∃ r, x s = (r, s) ∧ (r ≠ .outOfFuel → Settles good y r)

/-- The first computation leaves the store as it was, so the second one begins there on both sides.
-/
theorem Mirrors.bind {x y : Eval α} {f g : α → Eval β} (hx : Mirrors s good x y)
    (hf : ∀ a, x s = (.ok a, s) → Mirrors s good (f a) (g a)) :
    Mirrors s good (x >>= f) (y >>= g) := by
  obtain ⟨r, hread, hsettles⟩ := hx
  rcases r with a | e | _
  · obtain ⟨r', hread', hsettles'⟩ := hf a hread
    refine ⟨r', (bind_of_ok hread).trans hread', fun hr t ht => ?_⟩
    obtain ⟨t₁, hy, ht₁⟩ := hsettles (by rintro ⟨⟩) t ht
    obtain ⟨t₂, hg, ht₂⟩ := hsettles' hr t₁ ht₁
    exact ⟨t₂, (bind_of_ok hy).trans hg, ht₂⟩
  · refine ⟨.error e, bind_of_error hread, fun hr t ht => ?_⟩
    obtain ⟨t₁, hy, ht₁⟩ := hsettles (by rintro ⟨⟩) t ht
    exact ⟨t₁, bind_of_error hy, ht₁⟩
  · exact ⟨.outOfFuel, bind_of_outOfFuel hread, fun hr => absurd rfl hr⟩

/-- Mirroring goes through sequences. -/
theorem sequential_mirrors (s : Store) (good : Store → Prop) : Sequential (Mirrors s good) where
  giveUp := ⟨.outOfFuel, rfl, fun h => absurd rfl h⟩
  ofExcept x := by
    cases x with
    | ok a => exact ⟨.ok a, rfl, fun _ t ht => ⟨t, rfl, ht⟩⟩
    | error e => exact ⟨.error e, rfl, fun _ t ht => ⟨t, rfl, ht⟩⟩
  bind hx hf := hx.bind fun a _ => hf a

end Eval

/-! ### What a place offers -/

/-- From the good stores an environment gives every name but the placeholder the plain value that
it has in another one, and the placeholder the value that arrives, if the nesting is enough. -/
structure Offers (s : Store) (env : Env) (arrives : Prop) (w : Value) (good : Store → Prop)
    (nesting : Nat) (inner : Env) : Prop where
  name : ∀ {t name v}, good t → name ≠ placeholder → s.find? env name = some (.value v) →
    t.find? inner name = some (.value v)
  arrival : arrives → ∀ {n}, nesting ≤ n →
    Eval.Settles good ((Evaluator.level n).lookup inner placeholder) (.ok w)

/-- A plain name that is bound to a value is evaluated to it. -/
theorem Evaluator.lookup_of_find? (ev : Evaluator) {s : Store} {env : Env} {name : String}
    {v : Value} (hbare : unqualified? name = none) (h : s.find? env name = some (.value v)) :
    ev.lookup env name s = (.ok v, s) :=
  ev.lookup_of_value (Store.resolve_of_find? hbare h)

/-- The answer of such a builtin is the same wherever it is asked for. -/
theorem Native.Computes.apply {n : Native} (hn : n.Computes) (args : List Value) :
    ∃ x : Except EvalError Value, ∀ k env,
      (Evaluator.level (k + 1)).apply env (.native n) args = Eval.ofExcept x := by
  -- the answer to arguments of the right number depends on neither the evaluator nor the
  -- environment
  have happly : ∃ x : Except EvalError Value, ∀ (ev : Evaluator) env,
      ev.applyNative env n args = Eval.ofExcept x := by
    unfold Evaluator.applyNative
    split
    case h_1 op v => exact ⟨op.answer v, fun _ _ => rfl⟩
    case h_2 op a b => exact ⟨op.answer a b, fun _ _ => rfl⟩
    case h_3 => exact ⟨.ok _, fun _ _ => rfl⟩
    case h_8 => exact ⟨.error _, fun _ _ => rfl⟩
    all_goals exact absurd (by simp) hn
  obtain ⟨x, hx⟩ := happly
  -- their number is checked first
  cases haccepts : n.arity.accepts args.length with
  | true =>
    refine ⟨x, fun k env => ?_⟩
    rw [← hx (Evaluator.level k) env]
    show (Evaluator.checkArity n.name n.arity args.length >>= fun _ => _) = _
    rw [Evaluator.checkArity, if_pos haccepts]
    rfl
  | false =>
    refine ⟨.error (.arity n.name n.arity args.length), fun k env => ?_⟩
    show (Evaluator.checkArity n.name n.arity args.length >>= fun _ => _) = _
    rw [Evaluator.checkArity, if_neg (by simp [haccepts])]
    rfl

/-! ### First-order expressions in two places -/

namespace Calculation

open Eval

variable {s : Store} {env here there : Env} {nesting : Nat}

/-- An evaluator of the lowest level gives up, any other one evaluates by means of the next. -/
theorem related_of_evalExpr {rel : ∀ {α : Type}, Eval α → Eval α → Prop} (hrel : Sequential rel)
    {e : Expr} (h : ∀ k, rel ((Evaluator.level k).evalExpr here e)
      ((Evaluator.level (k + nesting)).evalExpr there e)) (k : Nat) :
    rel ((Evaluator.level k).eval here e) ((Evaluator.level (k + nesting)).eval there e) := by
  cases k with
  | zero => exact hrel.giveUp
  | succ k =>
    rw [Nat.add_right_comm]
    exact h k

/-- A relation that goes through sequences relates the evaluations of such an expression in two
places, if it relates those of its names and of the builtins that are called. -/
theorem related {rel : ∀ {α : Type}, Eval α → Eval α → Prop} (hrel : Sequential rel)
    {met : Expr → Prop} (hparts : ∀ {e}, met e → ∀ part ∈ e.parts, met part)
    (hname : ∀ {name span}, met (.sym name span) → ∀ k,
      rel ((Evaluator.level k).lookup here name)
        ((Evaluator.level (k + nesting)).lookup there name))
    (hcallee : ∀ {name at_ args span}, met (.call (.sym name at_) args span) →
      ∀ (ev ev' : Evaluator) {f g : Value → Eval Value},
        (∀ n : Native, n.Computes → rel (f (.native n)) (g (.native n))) →
          rel (ev.lookup here name >>= f) (ev'.lookup there name >>= g))
    {e : Expr} (he : Calculation s env e) (hmet : met e) (k : Nat) :
    rel ((Evaluator.level k).eval here e) ((Evaluator.level (k + nesting)).eval there e) := by
  induction he generalizing k with
  | lit literal span =>
    refine related_of_evalExpr hrel (fun k => ?_) k
    exact hrel.pure literal.value
  | name hbound span =>
    refine related_of_evalExpr hrel (fun k => ?_) k
    exact hname hmet k
  | paren he span ih =>
    have he' := ih (hparts hmet _ (by simp [Expr.parts]))
    refine related_of_evalExpr hrel (fun k => ?_) k
    exact he' k
  | block hstmts span ih =>
    have hall := fun e he => ih e he (hparts hmet e he)
    refine related_of_evalExpr hrel (fun k => ?_) k
    exact hrel.foldlM .null fun _ e he => hall e he k
  | list hitems span ih =>
    have hall := fun e he => ih e he (hparts hmet e he)
    refine related_of_evalExpr hrel (fun k => ?_) k
    exact hrel.bind (hrel.mapM fun e he => hall e he k) fun vs => hrel.pure (Value.list vs)
  | record hfields span ih =>
    have hall := fun field hfield => ih field hfield (hparts hmet _ (List.mem_map_of_mem hfield))
    refine related_of_evalExpr hrel (fun k => ?_) k
    have hfold : ∀ known, ∀ field ∈ _, rel _ _ := fun known field hfield =>
      hrel.bind (hall field hfield k) fun v => hrel.pure (Fields.insert field.1 v known)
    exact hrel.bind (hrel.foldlM [] hfold) fun known => hrel.pure (Value.record known)
  | field he name span ih =>
    have he' := ih (hparts hmet _ (by simp [Expr.parts]))
    refine related_of_evalExpr hrel (fun k => ?_) k
    refine hrel.bind (he' k) fun v => hrel.bind (hrel.ofExcept v.asRecord) fun fields => ?_
    exact hrel.pure (fieldOf fields name)
  | ifThen hcond hyes span ihcond ihyes =>
    have hc := ihcond (hparts hmet _ (by simp [Expr.parts]))
    have hy := ihyes (hparts hmet _ (by simp [Expr.parts]))
    refine related_of_evalExpr hrel (fun k => ?_) k
    refine hrel.bindBool (hc k) fun truth => ?_
    split
    · exact hy k
    · exact hrel.pure Value.null
  | ifElse hcond hyes hno span ihcond ihyes ihno =>
    have hc := ihcond (hparts hmet _ (by simp [Expr.parts]))
    have hy := ihyes (hparts hmet _ (by simp [Expr.parts]))
    have hn := ihno (hparts hmet _ (by simp [Expr.parts]))
    refine related_of_evalExpr hrel (fun k => ?_) k
    refine hrel.bindBool (hc k) fun truth => ?_
    split
    · exact hy k
    · exact hn k
  | call _ hbound hn hargs at_ span ih =>
    have hall := fun e he => ih e he (hparts hmet e (List.mem_cons_of_mem _ he))
    refine related_of_evalExpr hrel (fun k => ?_) k
    cases k with
    | zero =>
      show rel Eval.giveUp _
      exact hrel.giveUp
    | succ k =>
      rw [Nat.add_right_comm]
      refine hcallee hmet (.level k) (.level (k + nesting)) fun n hn => ?_
      -- the answer of the builtin depends on the arguments alone
      refine hrel.bind (hrel.mapM fun e he => ?_) fun vs => ?_
      · rw [← Nat.add_right_comm]
        exact hall e he (k + 1)
      · obtain ⟨x, hx⟩ := hn.apply vs
        rw [hx, hx]
        exact hrel.ofExcept x

end Calculation

namespace FirstOrder

open Eval

variable {s u : Store} {env here there : Env} {arrives : Prop} {w : Value} {good : Store → Prop}
  {nesting : Nat}

/-- What comes out of a first-order expression in one place, where the values are at hand, comes
out of it wherever the same values are offered. -/
theorem mirrors (hhere : Offers s env arrives w (· = u) 0 here)
    (hthere : Offers s env arrives w good nesting there) {e : Expr}
    (he : FirstOrder s env arrives e) (k : Nat) :
    Mirrors u good ((Evaluator.level k).eval here e)
      ((Evaluator.level (k + nesting)).eval there e) := by
  have hsym : ∀ {name v}, name ≠ placeholder → unqualified? name = none →
      s.find? env name = some (.value v) → ∀ (ev ev' : Evaluator),
        ev.lookup here name u = (.ok v, u) ∧ Settles good (ev'.lookup there name) (.ok v) := by
    intro name v hname hbare hbound ev ev'
    refine ⟨ev.lookup_of_find? hbare (hhere.name rfl hname hbound), fun t ht => ?_⟩
    exact ⟨t, ev'.lookup_of_find? hbare (hthere.name ht hname hbound), ht⟩
  refine Calculation.related (sequential_mirrors u good) parts ?_ ?_ he.calculation he k
  · intro name span hmet k
    cases hmet with
    -- to ask for the placeholder may change the store in the other place, but it stays a good one
    | arrival h =>
      obtain ⟨t, hread, rfl⟩ := hhere.arrival h (Nat.zero_le k) u rfl
      exact ⟨.ok w, hread, fun _ => hthere.arrival h (Nat.le_add_left nesting k)⟩
    | name hne hbare hbound =>
      obtain ⟨hread, hsettles⟩ := hsym hne hbare hbound (.level k) (.level (k + nesting))
      exact ⟨_, hread, fun _ => hsettles⟩
  -- the callee is the builtin in both places
  · intro name at_ args span hmet ev ev' f g hfg
    cases hmet with
    | call hne hbare hbound hn =>
      obtain ⟨hread, hsettles⟩ := hsym hne hbare hbound ev ev'
      refine Mirrors.bind ⟨_, hread, fun _ => hsettles⟩ fun a ha => ?_
      obtain rfl : Value.native _ = a := Outcome.ok.inj (congrArg Prod.fst (hread.symm.trans ha))
      exact hfg _ hn

/-- In one place the store is only read. -/
theorem reads (hhere : Offers s env arrives w (· = u) 0 here) {e : Expr}
    (he : FirstOrder s env arrives e) (k : Nat) :
    ∃ r, (Evaluator.level k).eval here e u = (r, u) := by
  obtain ⟨r, hread, -⟩ := he.mirrors hhere hhere k
  exact ⟨r, hread⟩

/-- The outcome in one place is the one in the other, if the nesting is enough. -/
theorem settles (hhere : Offers s env arrives w (· = u) 0 here)
    (hthere : Offers s env arrives w good nesting there) {e : Expr}
    (he : FirstOrder s env arrives e) {n m : Nat} (hm : n + nesting ≤ m)
    {r : Outcome EvalError Value} (hr : (Evaluator.level n).eval here e u = (r, u))
    (hfuel : r ≠ .outOfFuel) : Settles good ((Evaluator.level m).eval there e) r := by
  have hmore : Offers s env arrives w good (m - n) there :=
    ⟨hthere.name, fun h _ hn => hthere.arrival h (by omega)⟩
  obtain ⟨r', hread, hsettles⟩ := he.mirrors hhere hmore n
  obtain rfl : r' = r := congrArg Prod.fst (hread.symm.trans hr)
  rw [Nat.add_sub_cancel' (by omega)] at hsettles
  exact hsettles hfuel

end FirstOrder

end PipeLang
