import PipeLang.Program
import PipeLang.Proofs.Demand
import PipeLang.Proofs.FittedPrint
import PipeLang.Proofs.LikeValues

/-!
# Displayed data reads back

Data is made of literals, lists and records (`Value.IsData`).  In print it is source text, that of
the expression `Value.source`.

* `Value.IsData.lexes`: the text is cut into the tokens of this expression.
* `Value.IsData.fits`: the expression is one that is read back, so it is what the text is parsed as.
* `Evaluator.gives_source`: what is parsed evaluates to the data that was displayed.

A negative integer comes back as a call of `neg`, so this needs `neg` to mean what it says.
-/

namespace PipeLang

/-! ### Data -/

/-- The value is made of literals, lists and records.  There is no text for a record without fields,
as the braces alone are a block, and none for the least integer. -/
inductive Value.IsData : Value → Prop
  | null : IsData .null
  | bool (b : Bool) : IsData (.bool b)
  | int {n : Int64} (hn : n ≠ Int64.minValue) : IsData (.int n)
  | str (s : String) : IsData (.str s)
  | list {items : List Value} (h : ∀ v ∈ items, IsData v) : IsData (.list items)
  | record {fields : List (String × Value)} (hne : fields ≠ []) (hordered : Fields.Ordered fields)
      (hnames : ∀ f ∈ fields, IsName f.1) (h : ∀ f ∈ fields, IsData f.2) :
      IsData (.record fields)

/-- The expression that an integer is read as. -/
def intSource (n : Int64) : Expr :=
  if 0 ≤ n.toInt then .lit (.int n) .nowhere
  else .call (.sym "neg" .nowhere) [.lit (.int (Int64.ofInt (-n.toInt))) .nowhere] .nowhere

mutual

/-- The expression that the value in print is read as, if it is data. -/
def Value.source : Value → Expr
  | .null => .lit .null .nowhere
  | .bool b => .lit (.bool b) .nowhere
  | .int n => intSource n
  | .float x => .lit (.float x) .nowhere
  | .str s => .lit (.str s) .nowhere
  | .list items => .list (Value.sources items) .nowhere
  | .record fields => .record (Value.fieldSources fields) .nowhere
  | v => .sym v.showItem .nowhere

/-- The expressions that the values are read as. -/
def Value.sources : List Value → List Expr
  | [] => []
  | v :: rest => v.source :: Value.sources rest

/-- The expressions that the named values are read as. -/
def Value.fieldSources : List (String × Value) → List (String × Expr)
  | [] => []
  | (name, v) :: rest => (name, v.source) :: Value.fieldSources rest

end

/-- Each integer but the least one has an opposite. -/
theorem toInt_opposite {n : Int64} (hn : n ≠ Int64.minValue) :
    (Int64.ofInt (-n.toInt)).toInt = -n.toInt := by
  have hmin : n.toInt ≠ -9223372036854775808 := fun h => hn (Int64.toInt_inj.1 h)
  have hn := fitsWord_toInt n
  refine toInt_ofInt_of_fitsWord ?_
  unfold FitsWord at hn ⊢
  omega

theorem toString_of_neg {n : Int} (hn : n < 0) : toString n = "-" ++ toString (-n) := by
  cases n with
  | ofNat n => exact absurd hn (Int.not_lt.2 (Int.natCast_nonneg n))
  | negSucc n => rfl

theorem print_intSource {n : Int64} (hn : n ≠ Int64.minValue) :
    (intSource n).print = toString n.toInt := by
  rw [intSource]
  split
  · rfl
  · next hsign =>
    rw [print_sign (t := .minus) rfl, toString_of_neg (Int.not_le.1 hsign)]
    show "-" ++ toString (Int64.ofInt (-n.toInt)).toInt = _
    rw [toInt_opposite hn]

theorem Expr.unspannedAll_parenthesizedAll {es : List Expr}
    (h : ∀ e ∈ es, e.parenthesized.unspanned = e) :
    unspannedAll (parenthesizedAll es) = es := by
  induction es with
  | nil => rfl
  | cons e rest ih =>
    obtain ⟨he, hrest⟩ := List.forall_mem_cons.1 h
    rw [parenthesizedAll, unspannedAll, he, ih hrest]

theorem Expr.unspannedFields_parenthesizedFields {fields : List (String × Expr)}
    (h : ∀ f ∈ fields, f.2.parenthesized.unspanned = f.2) :
    unspannedFields (parenthesizedFields fields) = fields := by
  induction fields with
  | nil => rfl
  | cons f rest ih =>
    obtain ⟨hf, hrest⟩ := List.forall_mem_cons.1 h
    rw [parenthesizedFields, unspannedFields, hf, ih hrest]

namespace Value

theorem sources_eq_map (items : List Value) : sources items = items.map source := by
  induction items with
  | nil => rw [sources]; rfl
  | cons v rest ih => rw [sources, ih]; rfl

theorem fieldSources_eq_map (fields : List (String × Value)) :
    fieldSources fields = fields.map fun f => (f.1, f.2.source) := by
  induction fields with
  | nil => rw [fieldSources]; rfl
  | cons f rest ih => rw [fieldSources, ih]; rfl

theorem showFields_eq_map (fields : List (String × Value)) :
    showFields fields = fields.map fun f => f.1 ++ ": " ++ f.2.showItem := by
  induction fields with
  | nil => rw [showFields]; rfl
  | cons f rest ih => rw [showFields, ih]; rfl

namespace IsData

variable {v : Value} {rest : List Char} {ts : List Token}

/-! ### The expression -/

theorem fits (h : v.IsData) : v.source.Fits := by
  induction h with
  | null | bool | str =>
    rw [source]
    exact .lit (by rintro x ⟨⟩) (by rintro n ⟨⟩)
  | @int n hn =>
    rw [source, intSource]
    split
    · next hsign => exact .lit (by rintro x ⟨⟩) (by rintro m ⟨⟩; exact hsign)
    · have hopposite := toInt_opposite hn
      refine .sign (t := .minus) rfl (.lit (by rintro x ⟨⟩) ?_) (Nat.le_refl _)
      rintro m ⟨⟩
      omega
  | list _ ih =>
    rw [source, sources_eq_map]
    exact .list (List.forall_mem_map.2 ih)
  | record hne _ hnames _ ih =>
    rw [source, fieldSources_eq_map]
    exact .record (List.map_eq_nil_iff.not.2 hne) (List.forall_mem_map.2 hnames)
      (List.forall_mem_map.2 ih)

/-- There is nothing in the expression that is lost when it is read back. -/
theorem restored (h : v.IsData) : v.source.parenthesized.unspanned = v.source := by
  induction h with
  | null | bool | str => rfl
  | int =>
    rw [source, intSource]
    split
    · rfl
    · rfl
  | list _ ih =>
    rw [source, sources_eq_map, Expr.parenthesized, Expr.unspanned,
      Expr.unspannedAll_parenthesizedAll (List.forall_mem_map.2 ih)]
  | record _ _ _ _ ih =>
    rw [source, fieldSources_eq_map, Expr.parenthesized, Expr.unspanned,
      Expr.unspannedFields_parenthesizedFields (List.forall_mem_map.2 ih)]

/-! ### The text -/

/-- Data is printed and read back token by token, whatever delimited text follows. -/
theorem lexes (h : v.IsData) (hrest : Delimited rest) (hts : Lexes rest ts) :
    Lexes (v.showItem.toList ++ rest) (v.source.tokens ++ ts) := by
  induction h generalizing rest ts with
  | null => exact (fits .null).prints.lexes hrest hts
  | bool b => exact (fits (.bool b)).prints.lexes hrest hts
  | str s => exact (fits (.str s)).prints.lexes hrest hts
  -- a negative number is printed with its sign, which is a token of its own
  | int hn =>
    rw [showItem, source, ← print_intSource hn]
    exact (fits (.int hn)).prints.lexes hrest hts
  | list _ ih =>
    rw [showItem, source, Expr.tokens, showItems_eq_map, sources_eq_map, Expr.tokensAll_eq_map,
      List.map_map]
    simp only [String.toList_append, List.append_assoc, List.cons_append, List.nil_append]
    refine lexes_mark '[' (fun _ => rfl) (by simp) ?_
    refine lexes_intercalate delimited_comma lexes_comma
      (fun v hv _ _ hrest hts => ih v hv hrest hts) (delimited_cons (by decide) _) ?_
    exact lexes_mark ']' (fun _ => rfl) (by simp) hts
  | record _ _ hnames _ ih =>
    rw [showItem, source, Expr.tokens, showFields_eq_map, fieldSources_eq_map,
      Expr.fieldTokens_eq_map, List.map_map]
    simp only [String.toList_append, List.append_assoc, List.cons_append, List.nil_append]
    refine lexes_leftBrace ?_
    refine lexes_intercalate delimited_comma lexes_comma (fun f hf rest ts hrest hts => ?_)
      (delimited_cons (by decide) _) (lexes_rightBrace hts)
    simp only [String.toList_append, List.append_assoc]
    exact lexes_label (hnames f hf) (ih f hf hrest hts)

end IsData

end Value

/-! ### Evaluating the expression -/

namespace Expr

variable {e f : Expr} {es : List Expr} {fields : List (String × Expr)} {s : Span} {name : String}

theorem exists_lit_of_unspanned {l : Literal} (h : e.unspanned = .lit l s) :
    ∃ s', e = .lit l s' := by
  cases e with
  | lit l' s' =>
    rw [unspanned] at h
    cases h
    exact ⟨s', rfl⟩
  | _ => rw [unspanned] at h; cases h

theorem exists_sym_of_unspanned (h : e.unspanned = .sym name s) : ∃ s', e = .sym name s' := by
  cases e with
  | sym name' s' =>
    rw [unspanned] at h
    cases h
    exact ⟨s', rfl⟩
  | _ => rw [unspanned] at h; cases h

theorem exists_call_of_unspanned (h : e.unspanned = .call f es s) :
    ∃ f' es' s', e = .call f' es' s' ∧ f'.unspanned = f ∧ unspannedAll es' = es := by
  cases e with
  | call f' es' s' =>
    rw [unspanned] at h
    cases h
    exact ⟨f', es', s', rfl, rfl, rfl⟩
  | _ => rw [unspanned] at h; cases h

theorem exists_list_of_unspanned (h : e.unspanned = .list es s) :
    ∃ es' s', e = .list es' s' ∧ unspannedAll es' = es := by
  cases e with
  | list es' s' =>
    rw [unspanned] at h
    cases h
    exact ⟨es', s', rfl, rfl⟩
  | _ => rw [unspanned] at h; cases h

theorem exists_record_of_unspanned (h : e.unspanned = .record fields s) :
    ∃ fields' s', e = .record fields' s' ∧ unspannedFields fields' = fields := by
  cases e with
  | record fields' s' =>
    rw [unspanned] at h
    cases h
    exact ⟨fields', s', rfl, rfl⟩
  | _ => rw [unspanned] at h; cases h

end Expr

theorem Fields.insert_of_forall_gt {α : Type} {name : String} {fields : Fields α}
    (h : ∀ entry ∈ fields, entry.1 < name) (value : α) :
    fields.insert name value = fields ++ [(name, value)] := by
  induction fields with
  | nil => rfl
  | cons entry rest ih =>
    obtain ⟨hentry, hrest⟩ := List.forall_mem_cons.1 h
    have hne : entry.1 ≠ name := fun heq => String.lt_irrefl name (heq ▸ hentry)
    rw [Fields.insert, if_neg hne, if_neg (String.lt_asymm hentry), ih hrest]
    rfl

namespace Evaluator

variable {ev : Evaluator} {env : Env} {s : Store}

/-- The expression evaluates to the value, and nothing is written on the way. -/
def Gives (ev : Evaluator) (env : Env) (s : Store) (e : Expr) (v : Value) : Prop :=
  ev.eval env e s = (.ok v, s)

theorem evalAll_of_gives {es : List Expr} {vs : List Value}
    (h : List.Forall₂ (ev.Gives env s) es vs) : ev.evalAll env es s = (.ok vs, s) := by
  induction h with
  | nil => rfl
  | cons he _ ih =>
    rw [evalAll, List.mapM_cons, Eval.bind_of_ok he]
    exact Eval.bind_of_ok ih

/-- Fields that are written in order are kept in this order. -/
theorem evalFields_of_gives {es : List (String × Expr)} {fields : Fields Value}
    (h : Fields.Alike (ev.Gives env s) es fields) (hordered : fields.Ordered) :
    ev.evalFields env es s = (.ok fields, s) := by
  -- the fields so far are in front, as their names come first
  have key : ∀ known : Fields Value, Fields.Ordered (known ++ fields) →
      (es.foldlM (fun known f => do pure (known.insert f.1 (← ev.eval env f.2))) known :
        Eval (Fields Value)) s = (.ok (known ++ fields), s) := by
    induction h with
    | nil =>
      intro known _
      rw [List.append_nil]
      rfl
    | @cons f entry es fields hentry _ ih =>
      intro known hknown
      obtain ⟨hname, hgives⟩ := hentry
      have hinsert : known.insert f.1 entry.2 = known ++ [entry] := by
        rw [hname]
        refine Fields.insert_of_forall_gt (fun other hother => ?_) _
        exact (List.pairwise_append.1 hknown).2.2 other hother entry List.mem_cons_self
      rw [List.foldlM_cons, bind_assoc, Eval.bind_of_ok hgives, pure_bind, hinsert]
      have hrest := ih (List.pairwise_cons.1 hordered).2 (known ++ [entry])
      rw [List.append_assoc] at hrest
      exact hrest hknown
  exact key [] hordered

end Evaluator

namespace Value

variable {R : Expr → Value → Prop}

theorem forall₂_of_sources {items : List Value} {es : List Expr}
    (hes : Expr.unspannedAll es = items.map source)
    (h : ∀ v ∈ items, ∀ e, e.unspanned = v.source → R e v) : List.Forall₂ R es items := by
  induction items generalizing es with
  | nil =>
    cases es with
    | nil => exact .nil
    | cons => cases hes
  | cons v rest ih =>
    obtain ⟨hv, hrest⟩ := List.forall_mem_cons.1 h
    cases es with
    | nil => cases hes
    | cons e es =>
      obtain ⟨he, hes⟩ := List.cons.inj hes
      exact .cons (hv e he) (ih hes hrest)

theorem alike_of_fieldSources {fields : Fields Value} {es : List (String × Expr)}
    (hes : Expr.unspannedFields es = fields.map fun f => (f.1, f.2.source))
    (h : ∀ f ∈ fields, ∀ e, e.unspanned = f.2.source → R e f.2) : Fields.Alike R es fields := by
  induction fields generalizing es with
  | nil =>
    cases es with
    | nil => exact .nil
    | cons => cases hes
  | cons f rest ih =>
    obtain ⟨hf, hrest⟩ := List.forall_mem_cons.1 h
    cases es with
    | nil => cases hes
    | cons e es =>
      obtain ⟨he, hes⟩ := List.cons.inj hes
      obtain ⟨hname, he⟩ := Prod.mk.inj he
      exact .cons ⟨hname, hf e.2 he⟩ (ih hes hrest)

end Value

namespace Evaluator

variable {env : Env} {s : Store}

/-- A negative number is the call of `neg` on the positive one. -/
theorem gives_opposite {n : Int64} {e : Expr} (hn : n ≠ Int64.minValue)
    (he : e.unspanned = .call (.sym "neg" .nowhere)
      [.lit (.int (Int64.ofInt (-n.toInt))) .nowhere] .nowhere)
    (hneg : s.resolve env "neg" = .ok (.value (.native (.unary .neg)))) (m : Nat) :
    (level (m + 2)).Gives env s e (.int n) := by
  obtain ⟨f, es, s', rfl, hf, hes⟩ := Expr.exists_call_of_unspanned he
  obtain ⟨s₁, rfl⟩ := Expr.exists_sym_of_unspanned hf
  have hes : List.Forall₂ ((level (m + 1)).Gives env s) es [.int (Int64.ofInt (-n.toInt))] := by
    rcases es with _ | ⟨e, _ | _⟩
    · cases hes
    · obtain ⟨s₂, rfl⟩ := Expr.exists_lit_of_unspanned (List.cons.inj hes).1
      exact .cons rfl .nil
    · cases (List.cons.inj hes).2
  have hcallee : (level (m + 1)).eval env (.sym "neg" s₁) s = (.ok (.native (.unary .neg)), s) :=
    (level m).lookup_of_value hneg
  -- the smallest number has no opposite, and is excluded
  have hanswer : negate (.int (Int64.ofInt (-n.toInt))) = .ok (.int n) := by
    rw [negate, toInt_opposite hn, Int.neg_neg, exact, int64?_toInt]
  show ((level (m + 1)).eval env (.sym "neg" s₁) >>= _) s = _
  rw [Eval.bind_of_ok hcallee]
  show ((level (m + 1)).evalAll env es >>= _) s = _
  rw [Eval.bind_of_ok (evalAll_of_gives hes)]
  show Eval.ofExcept (negate (.int (Int64.ofInt (-n.toInt)))) s = _
  rw [hanswer]
  rfl

/-- What the text of some data is parsed as evaluates to the data. -/
theorem gives_source {v : Value} (h : v.IsData) {e : Expr} (he : e.unspanned = v.source)
    (hneg : s.resolve env "neg" = .ok (.value (.native (.unary .neg)))) {m : Nat}
    (hm : sizeOf v < m) : (level m).Gives env s e v := by
  induction h generalizing e m with
  | null | bool | str =>
    obtain ⟨s', rfl⟩ := Expr.exists_lit_of_unspanned he
    obtain ⟨k, rfl⟩ : ∃ k, m = k + 1 := ⟨m - 1, by omega⟩
    rfl
  | @int n hn =>
    rw [Value.int.sizeOf_spec] at hm
    obtain ⟨k, rfl⟩ : ∃ k, m = k + 2 := ⟨m - 2, by omega⟩
    rw [Value.source, intSource] at he
    split at he
    · obtain ⟨s', rfl⟩ := Expr.exists_lit_of_unspanned he
      rfl
    · exact gives_opposite hn he hneg k
  | @list items _ ih =>
    rw [Value.list.sizeOf_spec] at hm
    obtain ⟨k, rfl⟩ : ∃ k, m = k + 1 := ⟨m - 1, by omega⟩
    rw [Value.source, Value.sources_eq_map] at he
    obtain ⟨es, s', rfl, hes⟩ := Expr.exists_list_of_unspanned he
    -- an item is smaller than its list, and so is what it takes to evaluate it
    have hitems : List.Forall₂ ((level k).Gives env s) es items :=
      Value.forall₂_of_sources hes fun v hv e he => by
        have hlt : sizeOf v < sizeOf items := List.sizeOf_lt_of_mem hv
        exact ih v hv he (by omega)
    show ((level k).evalAll env es >>= fun vs => pure (Value.list vs)) s = _
    rw [Eval.bind_of_ok (evalAll_of_gives hitems)]
    rfl
  | @record fields _ hordered _ _ ih =>
    rw [Value.record.sizeOf_spec] at hm
    obtain ⟨k, rfl⟩ : ∃ k, m = k + 1 := ⟨m - 1, by omega⟩
    rw [Value.source, Value.fieldSources_eq_map] at he
    obtain ⟨es, s', rfl, hes⟩ := Expr.exists_record_of_unspanned he
    have hfields : Fields.Alike ((level k).Gives env s) es fields :=
      Value.alike_of_fieldSources hes fun f hf e he => by
        have hlt : sizeOf f < sizeOf fields := List.sizeOf_lt_of_mem hf
        have hle : sizeOf f.2 < sizeOf f := by
          rw [Prod.mk.sizeOf_spec]
          omega
        exact ih f hf he (by omega)
    show ((level k).evalFields env es >>= fun fields => pure (Value.record fields)) s = _
    rw [Eval.bind_of_ok (evalFields_of_gives hfields hordered)]
    rfl

end Evaluator

/-! ### Round trip -/

/-- The text of data inside of other data is parsed, and what it is parsed as evaluates to the data
wherever `neg` is the builtin of this name. -/
theorem displayed_data_reads_back {v : Value} (h : v.IsData) :
    ∃ e, parseExpr v.showItem = .ok e ∧
      ∀ (s : Store) (env : Env), s.resolve env "neg" = .ok (.value (.native (.unary .neg))) →
        ∃ n, ∀ m, n ≤ m → (Evaluator.level m).eval env e s = (.ok v, s) := by
  have hlexes : Lexes (v.showItem.toList ++ []) (v.source.tokens ++ []) :=
    h.lexes delimited_nil lexes_nil
  rw [List.append_nil, List.append_nil] at hlexes
  obtain ⟨e, hparse, hrestores⟩ :=
    Parser.exists_parseExpr_of_lexes hlexes h.fits.rereads.1.stands
  refine ⟨e, hparse, fun s env hneg => ⟨sizeOf v + 1, fun m hm => ?_⟩⟩
  exact Evaluator.gives_source h (hrestores.trans h.restored) hneg hm

/-- A negative integer, a quotation mark and a line break, and a record with a word of the language
for a name. -/
theorem mixed_list_reads_back :
    let v : Value := .list [.int (-5), .str "\"\n", .record [("if", .null), ("x", .list [])]]
    let (env, s) := globalEnv .auto
    v.showItem = "[-5, \"\\\"\\n\", \x7bif: null, x: []\x7d]" ∧
    ∃ e, parseExpr v.showItem = .ok e ∧
      ∃ n, ∀ m, n ≤ m → (Evaluator.level m).eval env e s = (.ok v, s) := by
  intro v
  have hrecord : (Value.record [("if", .null), ("x", .list [])]).IsData := by
    refine .record (by simp) (List.pairwise_pair.2 (show "if" < "x" by decide)) ?_ ?_
    · have hif : IsName "if" := isName_of_letters (by decide) (by decide)
      have hx : IsName "x" := isName_of_letters (by decide) (by decide)
      simp [hif, hx]
    · simp [Value.IsData.null, Value.IsData.list]
  have hv : v.IsData := by
    have hint : (Value.int (-5)).IsData := .int (by decide)
    refine .list ?_
    simp [hint, hrecord, Value.IsData.str]
  obtain ⟨e, hparse, heval⟩ := displayed_data_reads_back hv
  exact ⟨by decide +kernel, e, hparse, heval _ _ rfl⟩

end PipeLang
