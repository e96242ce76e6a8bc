import PipeLang.Proofs.Growth
import PipeLang.Proofs.FirstOrder
import PipeLang.Proofs.Targets

/-!
# Expressions among the fields of a record

Within the scope of a record an expression reads the fields under their names.  Outside of it the
same comes out of the expression with the values of the fields in the places of their names
(`Expr.inject`), each as an inline node.

This is shown for first-order expressions whose functions are not shadowed by the fields
(`Injectable`).  Neither evaluation writes anything, so both are compared as computations that only
read their stores (`Eval.Together`), by induction on the expression (`Injectable.together`).
-/

namespace PipeLang

/-! ### Values in the places of names -/

namespace Expr

mutual

/-- The expression with nodes in the places of the symbols that have one. -/
def inject (nodes : Fields Expr) : Expr → Expr
  | lit literal s => lit literal s
  | sym name s => (nodes.get? name).getD (sym name s)
  | call func args s => call (func.inject nodes) (injectAll nodes args) s
  | paren inner s => paren (inner.inject nodes) s
  | block stmts s => block (injectAll nodes stmts) s
  | list items s => list (injectAll nodes items) s
  | record fields s => record (injectFields nodes fields) s
  | field target name s => field (target.inject nodes) name s
  | lambda params body s => lambda params (body.inject nodes) s
  | ifThen cond yes s => ifThen (cond.inject nodes) (yes.inject nodes) s
  | ifElse cond yes no s => ifElse (cond.inject nodes) (yes.inject nodes) (no.inject nodes) s
  | assign target value scope s => assign (target.inject nodes) (value.inject nodes) scope s
  | inline label ref s => inline label ref s

/-- Each of the expressions with nodes in the places of symbols. -/
def injectAll (nodes : Fields Expr) : List Expr → List Expr
  | [] => []
  | e :: rest => e.inject nodes :: injectAll nodes rest

/-- Each of the named expressions with nodes in the places of symbols. -/
def injectFields (nodes : Fields Expr) : List (String × Expr) → List (String × Expr)
  | [] => []
  | (name, e) :: rest => (name, e.inject nodes) :: injectFields nodes rest

end

theorem injectAll_eq_map (nodes : Fields Expr) (es : List Expr) :
    injectAll nodes es = es.map (inject nodes) := by
  induction es with
  | nil => rfl
  | cons e rest ih => rw [injectAll, List.map_cons, ih]

theorem injectFields_eq_map (nodes : Fields Expr) (fields : List (String × Expr)) :
    injectFields nodes fields = fields.map fun field => (field.1, field.2.inject nodes) := by
  induction fields with
  | nil => rfl
  | cons field rest ih => rw [injectFields, List.map_cons, ih]

mutual

/-- Nothing is replaced if there are no nodes. -/
theorem inject_nil : ∀ e : Expr, e.inject [] = e
  | lit .. | sym .. | inline .. => by rw [inject]; try rfl
  | call func args _ => by rw [inject, inject_nil func, injectAll_nil args]
  | paren e _ | field e _ _ | lambda _ e _ => by rw [inject, inject_nil e]
  | block es _ | list es _ => by rw [inject, injectAll_nil es]
  | record fields _ => by rw [inject, injectFields_nil fields]
  | ifThen cond yes _ => by rw [inject, inject_nil cond, inject_nil yes]
  | ifElse cond yes no _ => by rw [inject, inject_nil cond, inject_nil yes, inject_nil no]
  | assign target value _ _ => by rw [inject, inject_nil target, inject_nil value]

theorem injectAll_nil : ∀ es : List Expr, injectAll [] es = es
  | [] => rfl
  | e :: rest => by rw [injectAll, inject_nil e, injectAll_nil rest]

theorem injectFields_nil : ∀ fields : List (String × Expr), injectFields [] fields = fields
  | [] => rfl
  | (name, e) :: rest => by rw [injectFields, inject_nil e, injectFields_nil rest]

end

end Expr

/-- The fields of a record as inline nodes. -/
def Eval.spliceFields (fields : Fields Value) : Eval (Fields Expr) :=
  fields.mapM fun (name, v) => do pure (name, ← Eval.splice v .nowhere)

/-- The value of an expression with the fields of a record in the places of their names. -/
def Evaluator.evalInjected (ev : Evaluator) (env : Env) (fields : Fields Value) (e : Expr) :
    Eval Value := do
  let nodes ← Eval.spliceFields fields
  ev.eval env (e.inject nodes)

/-- Just the names of the fields have a node, which is the inline node of the value. -/
theorem Eval.exists_spliceFields (fields : Fields Value) (s : Store) :
    ∃ nodes t, spliceFields fields s = (.ok nodes, t) ∧ t.frames = s.frames ∧
      (∀ ref v, s.inline? ref = some v → t.inline? ref = some v) ∧
      (∀ name, fields.get? name = none → nodes.get? name = none) ∧
      ∀ name v, fields.get? name = some v → ∃ label ref span,
        nodes.get? name = some (.inline label ref span) ∧ t.inline? ref = some v := by
  induction fields generalizing s with
  | nil => exact ⟨[], s, rfl, rfl, fun _ _ h => h, fun _ _ => rfl, by rintro _ _ ⟨⟩⟩
  | cons field rest ih =>
    obtain ⟨key, w⟩ := field
    obtain ⟨nodes, t, hrest, hframes, hkept, hnone, hsome⟩ := ih (s.addInline w)
    -- spliced values that were there stay where they are when one more is added
    have hkept' : ∀ ref v, s.inline? ref = some v → t.inline? ref = some v := by
      intro ref v hv
      refine hkept ref v ?_
      have hlt : ref.index < s.inlines.size := (Array.getElem?_eq_some_iff.1 hv).1
      rw [Store.inline?, Store.addInline, Array.getElem?_push_lt hlt]
      exact (Array.getElem?_eq_getElem hlt).symm.trans hv
    refine ⟨(key, .inline w.show s.nextInline .nowhere) :: nodes, t, ?_, hframes, hkept', ?_, ?_⟩
    · rw [spliceFields, List.mapM_cons]
      have hfirst : (do pure (key, ← splice w .nowhere) : Eval (String × Expr)) s =
          (.ok (key, .inline w.show s.nextInline .nowhere), s.addInline w) := rfl
      exact (bind_of_ok hfirst).trans (bind_of_ok hrest)
    · intro name hname
      rw [Fields.get?] at hname ⊢
      split at hname
      · cases hname
      · rw [if_neg ‹_›]
        exact hnone name hname
    · intro name v hname
      rw [Fields.get?] at hname
      rw [Fields.get?]
      split at hname
      · cases hname
        rw [if_pos ‹_›]
        exact ⟨_, _, _, rfl, hkept _ _ (Store.inline?_addInline_nextInline s w)⟩
      · rw [if_neg ‹_›]
        exact hsome name v hname

/-! ### Expressions that read the fields -/

/-- First-order expressions in an environment and among the fields of a record: whatever names a
field is one, other names are bound to plain values, and functions are builtins that no field
shadows. -/
inductive Injectable (s : Store) (env : Env) (r : Fields Value) : Expr → Prop
  | lit (literal : Literal) (span : Span) : Injectable s env r (.lit literal span)
  | key {name : String} {v : Value} (hbare : unqualified? name = none)
      (hkey : r.get? name = some v) (span : Span) : Injectable s env r (.sym name span)
  | name {name : String} {v : Value} (hbare : unqualified? name = none)
      (hnone : r.get? name = none) (hbound : s.find? env name = some (.value v)) (span : Span) :
      Injectable s env r (.sym name span)
  | paren {e : Expr} (he : Injectable s env r e) (span : Span) : Injectable s env r (.paren e span)
  | block {stmts : List Expr} (hstmts : ∀ e ∈ stmts, Injectable s env r e) (span : Span) :
      Injectable s env r (.block stmts span)
  | list {items : List Expr} (hitems : ∀ e ∈ items, Injectable s env r e) (span : Span) :
      Injectable s env r (.list items span)
  | record {fields : List (String × Expr)} (hfields : ∀ field ∈ fields, Injectable s env r field.2)
      (span : Span) : Injectable s env r (.record fields span)
  | field {e : Expr} (he : Injectable s env r e) (name : String) (span : Span) :
      Injectable s env r (.field e name span)
  | ifThen {cond yes : Expr} (hcond : Injectable s env r cond) (hyes : Injectable s env r yes)
      (span : Span) : Injectable s env r (.ifThen cond yes span)
  | ifElse {cond yes no : Expr} (hcond : Injectable s env r cond) (hyes : Injectable s env r yes)
      (hno : Injectable s env r no) (span : Span) : Injectable s env r (.ifElse cond yes no span)
  | call {name : String} {n : Native} {args : List Expr} (hbare : unqualified? name = none)
      (hnone : r.get? name = none) (hbound : s.find? env name = some (.value (.native n)))
      (hn : n.Computes) (hargs : ∀ e ∈ args, Injectable s env r e) (at_ span : Span) :
      Injectable s env r (.call (.sym name at_) args span)

/-! ### Computations that read their stores -/

namespace Eval

variable {α β : Type} {s t : Store}

/-- Both computations only read their stores, and the same comes out of them. -/
def Together (s t : Store) (x y : Eval α) : Prop := ∃ r, x s = (r, s) ∧ y t = (r, t)

theorem Together.bind {x y : Eval α} {f g : α → Eval β} (h : Together s t x y)
    (hf : ∀ a, x s = (.ok a, s) → Together s t (f a) (g a)) :
    Together s t (x >>= f) (y >>= g) := by
  obtain ⟨r, hx, hy⟩ := h
  cases r with
  | ok a =>
    obtain ⟨r, hxf, hyg⟩ := hf a hx
    exact ⟨r, (bind_of_ok hx).trans hxf, (bind_of_ok hy).trans hyg⟩
  | error e => exact ⟨_, bind_of_error hx, bind_of_error hy⟩
  | outOfFuel => exact ⟨_, bind_of_outOfFuel hx, bind_of_outOfFuel hy⟩

theorem compositional_together (s t : Store) : Compositional (Together s t) where
  ofExcept x := by
    cases x with
    | ok a => exact ⟨.ok a, rfl, rfl⟩
    | error e => exact ⟨.error e, rfl, rfl⟩
  bind h hf := h.bind fun a _ => hf a

end Eval

namespace Injectable

open Eval

variable {s u t : Store} {env inner outer : Env} {r : Fields Value} {nodes : Fields Expr}
  {names : String → Prop} {e : Expr}

/-- An environment in which these names are bound to the fields or as they were, and nodes for the
fields in another one. -/
structure Places (s : Store) (env : Env) (r : Fields Value) (names : String → Prop)
    (inner : Env) (u : Store) (nodes : Fields Expr) (outer : Env) (t : Store) : Prop where
  key : ∀ {name v}, names name → r.get? name = some v →
    u.find? inner name = some (.value v) ∧ ∃ label ref span,
      nodes.get? name = some (.inline label ref span) ∧ t.inline? ref = some v
  name : ∀ {name v}, names name → r.get? name = none → s.find? env name = some (.value v) →
    u.find? inner name = some (.value v) ∧ nodes.get? name = none ∧
      t.find? outer name = some (.value v)

/-- An evaluator of the lowest level gives up, any other one evaluates by means of the next. -/
theorem together_of_evalExpr {e' : Expr}
    (h : ∀ k, Together u t ((Evaluator.level k).evalExpr inner e)
      ((Evaluator.level k).evalExpr outer e')) (k : Nat) :
    Together u t ((Evaluator.level k).eval inner e) ((Evaluator.level k).eval outer e') := by
  cases k with
  | zero => exact ⟨.outOfFuel, rfl, rfl⟩
  | succ k => exact h k

/-- A call of such a builtin comes to the same in both places if its arguments do. -/
theorem together_call {name : String} {n : Native} {args : List Expr}
    (hbare : unqualified? name = none) (hn : n.Computes)
    (hfind : u.find? inner name = some (.value (.native n)))
    (hfind' : t.find? outer name = some (.value (.native n)))
    (hargs : ∀ e ∈ args, ∀ k, Together u t ((Evaluator.level k).eval inner e)
      ((Evaluator.level k).eval outer (e.inject nodes))) (at_ span : Span) (k : Nat) :
    Together u t ((Evaluator.level k).evalExpr inner (.call (.sym name at_) args span))
      ((Evaluator.level k).evalExpr outer
        (.call (.sym name at_) (args.map (Expr.inject nodes)) span)) := by
  have hrel := compositional_together u t
  cases k with
  | zero => exact ⟨.outOfFuel, rfl, rfl⟩
  | succ k =>
    -- the callee is the builtin in both places, and its answer depends on the arguments alone
    have hread : (Evaluator.level (k + 1)).eval inner (.sym name at_) u = (.ok (.native n), u) :=
      (Evaluator.level k).lookup_of_find? hbare hfind
    have hread' : (Evaluator.level (k + 1)).eval outer (.sym name at_) t = (.ok (.native n), t) :=
      (Evaluator.level k).lookup_of_find? hbare hfind'
    refine Together.bind ⟨_, hread, hread'⟩ fun f hf => ?_
    obtain rfl : Value.native n = f := Outcome.ok.inj (congrArg Prod.fst (hread.symm.trans hf))
    rw [Evaluator.applyCall, Evaluator.applyCall, Evaluator.evalAll, Evaluator.evalAll,
      List.mapM_map]
    refine hrel.bind (hrel.mapM fun e he => hargs e he (k + 1)) fun vs => ?_
    obtain ⟨x, hx⟩ := hn.apply vs
    rw [hx, hx]
    exact hrel.ofExcept x

/-- The same comes out of the expression in the one place and of the expression with nodes in the
other. -/
theorem together (hplaces : Places s env r names inner u nodes outer t)
    (he : Injectable s env r e) (hnames : ∀ name, e.mentions name → names name) (k : Nat) :
    Together u t ((Evaluator.level k).eval inner e)
      ((Evaluator.level k).eval outer (e.inject nodes)) := by
  have hrel := compositional_together u t
  -- a symbol mentions its name, and an expression what its parts mention
  have hself : ∀ {name span}, Expr.mentions name (.sym name span) := by
    intro name span
    rw [Expr.mentions, Expr.has]
    exact beq_self_eq_true name
  have hparts : ∀ {e part : Expr}, (∀ name, e.mentions name → names name) → part ∈ e.parts →
      ∀ name, part.mentions name → names name :=
    fun hall hpart name hmentions => hall name (Expr.has_of_part hpart hmentions)
  induction he generalizing k with
  | lit literal span => exact together_of_evalExpr (fun k => hrel.pure literal.value) k
  -- a key of the record is bound inside and written as a node outside; any other name is found in
  -- both
  | @key name v hbare hkey span =>
    obtain ⟨hfind, label, ref, at_, hnode, hinline⟩ := hplaces.key (hnames name hself) hkey
    rw [Expr.inject, hnode]
    refine together_of_evalExpr (fun k => ⟨.ok v, ?_, ?_⟩) k
    · exact (Evaluator.level k).lookup_of_find? hbare hfind
    · exact Evaluator.eval_inline k hinline outer label at_
  | @name name v hbare hnone hbound span =>
    obtain ⟨hfind, hnode, hfind'⟩ := hplaces.name (hnames name hself) hnone hbound
    rw [Expr.inject, hnode]
    refine together_of_evalExpr (fun k => ⟨.ok v, ?_, ?_⟩) k
    · exact (Evaluator.level k).lookup_of_find? hbare hfind
    · exact (Evaluator.level k).lookup_of_find? hbare hfind'
  | paren he span ih =>
    have he' := ih (hparts hnames (by simp [Expr.parts]))
    rw [Expr.inject]
    exact together_of_evalExpr (fun k => he' k) k
  | block hstmts span ih =>
    have hall := fun e he => ih e he (hparts hnames he)
    rw [Expr.inject, Expr.injectAll_eq_map]
    refine together_of_evalExpr (fun k => ?_) k
    rw [Evaluator.evalExpr, Evaluator.evalExpr, Evaluator.evalStatements,
      Evaluator.evalStatements, List.foldlM_map]
    exact hrel.foldlM .null fun _ e he => hall e he k
  | list hitems span ih =>
    have hall := fun e he => ih e he (hparts hnames he)
    rw [Expr.inject, Expr.injectAll_eq_map]
    refine together_of_evalExpr (fun k => ?_) k
    rw [Evaluator.evalExpr, Evaluator.evalExpr, Evaluator.evalAll, Evaluator.evalAll, List.mapM_map]
    exact hrel.bind (hrel.mapM fun e he => hall e he k) fun vs => hrel.pure (Value.list vs)
  | record hfields span ih =>
    have hall := fun field hfield => ih field hfield (hparts hnames (List.mem_map_of_mem hfield))
    rw [Expr.inject, Expr.injectFields_eq_map]
    refine together_of_evalExpr (fun k => ?_) k
    rw [Evaluator.evalExpr, Evaluator.evalExpr, Evaluator.evalFields, Evaluator.evalFields,
      List.foldlM_map]
    exact hrel.bind (hrel.foldlM [] fun known field hfield =>
      hrel.bind (hall field hfield k) fun v => hrel.pure (Fields.insert field.1 v known))
      fun known => hrel.pure (Value.record known)
  | field he name span ih =>
    have he' := ih (hparts hnames (by simp [Expr.parts]))
    rw [Expr.inject]
    refine together_of_evalExpr (fun k => ?_) k
    exact hrel.bind (he' k) fun v => hrel.bind (hrel.ofExcept v.asRecord) fun fields =>
      hrel.pure (fieldOf fields name)
  | ifThen hcond hyes span ihcond ihyes =>
    have hc := ihcond (hparts hnames (by simp [Expr.parts]))
    have hy := ihyes (hparts hnames (by simp [Expr.parts]))
    rw [Expr.inject]
    refine together_of_evalExpr (fun k => ?_) k
    refine hrel.bindBool (hc k) fun truth => ?_
    split
    · exact hy k
    · exact hrel.pure Value.null
  | ifElse hcond hyes hno span ihcond ihyes ihno =>
    have hc := ihcond (hparts hnames (by simp [Expr.parts]))
    have hy := ihyes (hparts hnames (by simp [Expr.parts]))
    have hn := ihno (hparts hnames (by simp [Expr.parts]))
    rw [Expr.inject]
    refine together_of_evalExpr (fun k => ?_) k
    refine hrel.bindBool (hc k) fun truth => ?_
    split
    · exact hy k
    · exact hn k
  | @call name n args hbare hnone hbound hn hargs at_ span ih =>
    have hall := fun e he => ih e he (hparts hnames (List.mem_cons_of_mem _ he))
    have hcallee := hparts hnames (List.mem_cons_self (a := Expr.sym name at_)) name hself
    obtain ⟨hfind, hnode, hfind'⟩ := hplaces.name hcallee hnone hbound
    rw [Expr.inject, Expr.inject, hnode, Expr.injectAll_eq_map, Option.getD_none]
    exact together_of_evalExpr (together_call hbare hn hfind hfind' hall at_ span) k

end Injectable

end PipeLang
