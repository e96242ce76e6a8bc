import PipeLang.Proofs.Rereading

/-!
# Expressions that end with a token of their own

Literals, symbols, calls, fields and all that stands between two brackets are read back whatever
follows them (`IsClosed`), provided that their parts are read where they stand (`Stands`).  The
parts come in lists with separators, for which the three kinds of lists of the grammar have a lemma
each.
-/

namespace PipeLang

/-- The expressions are others one by one, up to spans and to the parentheses around callees. -/
def Expr.RestoresAll (es' es : List Expr) : Prop :=
  Expr.unspannedAll es' = Expr.unspannedAll (Expr.parenthesizedAll es)

/-- The named expressions are others one by one, names included. -/
def Expr.RestoresFields (fields' fields : List (String × Expr)) : Prop :=
  Expr.unspannedFields fields' = Expr.unspannedFields (Expr.parenthesizedFields fields)

theorem Expr.Restores.cons {e e' : Expr} {es es' : List Expr} (h : e'.Restores e)
    (hes : Expr.RestoresAll es' es) : Expr.RestoresAll (e' :: es') (e :: es) := by
  rw [RestoresAll, Expr.parenthesizedAll, Expr.unspannedAll, Expr.unspannedAll, h, hes]

theorem Expr.Restores.cons_field {e e' : Expr} {fields fields' : List (String × Expr)}
    (name : String) (h : e'.Restores e) (hfields : Expr.RestoresFields fields' fields) :
    Expr.RestoresFields ((name, e') :: fields') ((name, e) :: fields) := by
  rw [RestoresFields, Expr.parenthesizedFields, Expr.unspannedFields, Expr.unspannedFields, h,
    hfields]

namespace Parser

variable {free : Bool} {e e' : Expr} {es : List Expr} {s : Span} {t v : Lexeme} {close : Token}
  {ts us rest : List Lexeme}

/-! ### Lists -/

/-- No expression starts with a token that ends expressions. -/
theorem ne_of_isSome {t t' : Token} (h : (Start.ofToken? t).isSome) (h' : t'.isCloser = true) :
    t ≠ t' := by
  rintro rfl
  cases t <;> first | (cases h; done) | cases h'

/-- Expressions between commas are read back before the closing token. -/
theorem exists_givesExprs (rest : List Lexeme) (hclose : close.isCloser = true)
    (hcomma : close ≠ .comma) (hes : ∀ e ∈ es, Stands e)
    (hus : us.map Lexeme.token = [.comma].intercalate (es.map Expr.tokens)) (hv : v.token = close) :
    ∃ es', Expr.RestoresAll es' es ∧
      GivesExprs close (us ++ v :: rest) (.ok (es', v.span, rest)) := by
  have hcloser : v.token.isCloser = true := hv ▸ hclose
  have hend : ∀ ts, Closes (v :: ts) := closes_cons hcloser
  induction es generalizing us with
  | nil =>
    obtain rfl := List.map_eq_nil_iff.1 hus
    exact ⟨[], rfl, givesExprs_nil (skipNewlines_cons (ne_of_isCloser hcloser).1) hv⟩
  | cons e es ih =>
    obtain ⟨he, hothers⟩ := List.forall_mem_cons.1 hes
    -- a last item is followed by the closing bracket, any other by a comma
    cases es with
    | nil =>
      rw [List.map_cons, List.map_nil, List.intercalate_singleton] at hus
      obtain ⟨e', he', hgives⟩ := he true hus (hend rest)
      obtain ⟨u, us, rfl, hu⟩ := exists_cons_of_opens e.opens_tokens hus
      refine ⟨[e'], he'.cons rfl, ?_⟩
      exact givesExprs_singleton (skipNewlines_cons (ne_newline_of_isSome hu))
        (ne_of_isSome hu hclose) hgives (ahead_cons true (ne_of_isCloser hcloser).1) hv
    | cons e₂ es =>
      rw [List.map_cons, List.map_cons, List.intercalate_cons_cons, List.append_assoc] at hus
      obtain ⟨us₁, us₂, rfl, h₁, h₂⟩ := List.map_eq_append_iff.1 hus
      obtain ⟨c, us₃, rfl, hc, h₃⟩ := List.map_eq_cons_iff.1 h₂
      obtain ⟨es', hes', hgives'⟩ := ih hothers h₃
      obtain ⟨e', he', hgives⟩ := he true h₁
        (closes_cons (by rw [hc]; rfl) (us₃ ++ v :: rest))
      obtain ⟨u, us₄, rfl, hu⟩ := exists_cons_of_opens e.opens_tokens h₁
      refine ⟨e' :: es', he'.cons hes', ?_⟩
      rw [List.append_assoc, List.cons_append]
      exact givesExprs_cons (skipNewlines_cons (ne_newline_of_isSome hu))
        (ne_of_isSome hu hclose) hgives (ahead_cons true (by simp [hc])) hc hcomma hgives'

/-- A field of a record as far as its value. -/
theorem exists_field {name : String}
    (hus : us.map Lexeme.token = .ident name :: .colon :: e.tokens) :
    ∃ t u value, us = t :: u :: value ∧ t.token = .ident name ∧ u.token = .colon ∧
      value.map Lexeme.token = e.tokens := by
  obtain ⟨t, us', rfl, ht, hus'⟩ := List.map_eq_cons_iff.1 hus
  obtain ⟨u, value, rfl, hu, hvalue⟩ := List.map_eq_cons_iff.1 hus'
  exact ⟨t, u, value, rfl, ht, hu, hvalue⟩

/-- The fields of a record are read back before the closing brace. -/
theorem exists_givesFields {fields : List (String × Expr)} (hfields : ∀ f ∈ fields, Stands f.2)
    (hne : fields ≠ [])
    (hus : us.map Lexeme.token =
      [.comma].intercalate (fields.map fun f => .ident f.1 :: .colon :: f.2.tokens))
    (hv : v.token = .rightBrace) :
    ∃ fields', Expr.RestoresFields fields' fields ∧
      GivesFields (us ++ v :: rest) (.ok (fields', v.span, rest)) := by
  have hcloser : v.token.isCloser = true := by rw [hv]; rfl
  induction fields generalizing us with
  | nil => exact absurd rfl hne
  | cons f fields ih =>
    obtain ⟨name, e⟩ := f
    obtain ⟨he, hothers⟩ := List.forall_mem_cons.1 hfields
    -- a last field is followed by the closing brace, any other by a comma
    cases fields with
    | nil =>
      rw [List.map_cons, List.map_nil, List.intercalate_singleton] at hus
      obtain ⟨t, u, value, rfl, ht, hu, hvalue⟩ := exists_field hus
      obtain ⟨e', he', hgives⟩ := he true hvalue (closes_cons hcloser rest)
      refine ⟨[(name, e')], he'.cons_field name rfl, ?_⟩
      exact givesFields_singleton (skipNewlines_cons (by simp [ht])) ht
        (ahead_cons true (by simp [hu])) hu hgives
        (ahead_cons true (ne_of_isCloser hcloser).1) hv
    | cons f₂ fields =>
      rw [List.map_cons, List.map_cons, List.intercalate_cons_cons, List.append_assoc] at hus
      obtain ⟨us₁, us₂, rfl, h₁, h₂⟩ := List.map_eq_append_iff.1 hus
      obtain ⟨t, u, value, rfl, ht, hu, hvalue⟩ := exists_field h₁
      obtain ⟨c, us₃, rfl, hc, h₃⟩ := List.map_eq_cons_iff.1 h₂
      obtain ⟨fields', hfields', hgives'⟩ := ih hothers (List.cons_ne_nil _ _) h₃
      obtain ⟨e', he', hgives⟩ := he true hvalue
        (closes_cons (by rw [hc]; rfl) (us₃ ++ v :: rest))
      refine ⟨(name, e') :: fields', he'.cons_field name hfields', ?_⟩
      simp only [List.cons_append, List.append_assoc]
      exact givesFields_cons (skipNewlines_cons (by simp [ht])) ht
        (ahead_cons true (by simp [hu])) hu hgives (ahead_cons true (by simp [hc])) hc
        hgives'

/-- The statements of a block are read back before the closing brace. -/
theorem exists_givesStatements (hes : ∀ e ∈ es, Stands e)
    (hus : us.map Lexeme.token = [.semicolon].intercalate (es.map Expr.tokens))
    (hv : v.token = .rightBrace) :
    ∃ es', Expr.RestoresAll es' es ∧
      GivesStatements (some .rightBrace) (us ++ v :: rest) (.ok (es', v :: rest)) := by
  have hcloser : v.token.isCloser = true := by rw [hv]; rfl
  have hskip : ∀ ts, skipSeparators (v :: ts) = v :: ts :=
    fun ts => skipSeparators_cons (by simp [hv]) (by simp [hv])
  have hdone : GivesStatements (some .rightBrace) (v :: rest) (.ok ([], v :: rest)) :=
    givesStatements_nil (hskip rest) (congrArg some hv)
  induction es generalizing us with
  | nil =>
    obtain rfl := List.map_eq_nil_iff.1 hus
    exact ⟨[], rfl, hdone⟩
  | cons e es ih =>
    obtain ⟨he, hothers⟩ := List.forall_mem_cons.1 hes
    -- a last statement is followed by the closing brace, any other by a semicolon
    cases es with
    | nil =>
      rw [List.map_cons, List.map_nil, List.intercalate_singleton] at hus
      obtain ⟨e', he', hgives⟩ := he false hus (closes_cons hcloser rest)
      obtain ⟨u, us, rfl, hu⟩ := exists_cons_of_opens e.opens_tokens hus
      refine ⟨[e'], he'.cons rfl, ?_⟩
      exact givesStatements_cons
        (skipSeparators_cons (ne_newline_of_isSome hu) (ne_of_isSome hu rfl))
        (fun h => ne_of_isSome hu rfl (Option.some.inj h)) hgives
        (by simp [endsStatement, hv]) hdone
    | cons e₂ es =>
      rw [List.map_cons, List.map_cons, List.intercalate_cons_cons, List.append_assoc] at hus
      obtain ⟨us₁, us₂, rfl, h₁, h₂⟩ := List.map_eq_append_iff.1 hus
      obtain ⟨c, us₃, rfl, hc, h₃⟩ := List.map_eq_cons_iff.1 h₂
      obtain ⟨es', hes', hgives'⟩ := ih hothers h₃
      obtain ⟨e', he', hgives⟩ := he false h₁
        (closes_cons (by rw [hc]; rfl) (us₃ ++ v :: rest))
      obtain ⟨u, us₄, rfl, hu⟩ := exists_cons_of_opens e.opens_tokens h₁
      refine ⟨e' :: es', he'.cons hes', ?_⟩
      rw [List.append_assoc, List.cons_append]
      exact givesStatements_cons
        (skipSeparators_cons (ne_newline_of_isSome hu) (ne_of_isSome hu rfl))
        (fun h => ne_of_isSome hu rfl (Option.some.inj h)) hgives (by simp [endsStatement, hc])
        (givesStatements_separator (.inr hc) hgives')

/-! ### Atoms -/

/-- An atom that is read whatever follows is closed. -/
theorem isClosed_of_givesAtom
    (h : ∀ (free : Bool) {us} (rest : List Lexeme), us.map Lexeme.token = e.tokens →
      ∃ e' : Expr, e'.Restores e ∧ GivesAtom free (us ++ rest) (.ok (e', rest))) : IsClosed e := by
  intro free us rest hus
  obtain ⟨e', he', hgives⟩ := h free rest hus
  exact ⟨e', he', fun r hr => givesOperand hgives hr⟩

/-- A literal is started by its token. -/
theorem ofToken?_literal (literal : Literal) :
    Start.ofToken? literal.token = some (.literal literal) := by
  cases literal with
  | bool b => cases b <;> rfl
  | _ => rfl

theorem isClosed_lit (literal : Literal) (s : Span) : IsClosed (.lit literal s) := by
  refine isClosed_of_givesAtom fun free us rest hus => ?_
  rw [Expr.tokens] at hus
  obtain ⟨u, us, rfl, hu, hnil⟩ := List.map_eq_cons_iff.1 hus
  obtain rfl := List.map_eq_nil_iff.1 hnil
  have hstart := hu ▸ ofToken?_literal literal
  refine ⟨.lit literal u.span, ?_, givesAtom_literal
    (ahead_cons free (ne_newline_of_isSome (Option.isSome_of_eq_some hstart))) hstart⟩
  simp only [Expr.Restores, Expr.parenthesized, Expr.unspanned]

/-- A printed symbol starts with the token of its name. -/
theorem ofToken?_nameToken (name : String) :
    Start.ofToken? (nameToken name) = some (.symbol name) := by
  unfold nameToken
  split
  · next h => rw [h]; rfl
  · rfl

theorem isClosed_sym (name : String) (s : Span) : IsClosed (.sym name s) := by
  refine isClosed_of_givesAtom fun free us rest hus => ?_
  rw [Expr.tokens] at hus
  obtain ⟨u, us, rfl, hu, hnil⟩ := List.map_eq_cons_iff.1 hus
  obtain rfl := List.map_eq_nil_iff.1 hnil
  have hstart := hu ▸ ofToken?_nameToken name
  refine ⟨.sym name u.span, ?_, givesAtom_symbol
    (ahead_cons free (ne_newline_of_isSome (Option.isSome_of_eq_some hstart))) hstart⟩
  simp only [Expr.Restores, Expr.parenthesized, Expr.unspanned]

/-- The lexemes of an expression between two others. -/
theorem exists_between {first last : Token} {inner : List Token}
    (hus : us.map Lexeme.token = first :: inner ++ [last]) :
    ∃ t us' v, us = t :: (us' ++ [v]) ∧ t.token = first ∧ us'.map Lexeme.token = inner ∧
      v.token = last := by
  obtain ⟨us₁, us₂, rfl, h₁, h₂⟩ := List.map_eq_append_iff.1 hus
  obtain ⟨t, us', rfl, ht, hus'⟩ := List.map_eq_cons_iff.1 h₁
  obtain ⟨v, us₃, rfl, hv, hnil⟩ := List.map_eq_cons_iff.1 h₂
  obtain rfl := List.map_eq_nil_iff.1 hnil
  exact ⟨t, us', v, rfl, ht, hus', hv⟩

/-- An expression between parentheses. -/
theorem exists_givesAtom_paren (free : Bool) (rest : List Lexeme) (he : Stands e)
    (hus : us.map Lexeme.token = .leftParen :: e.tokens ++ [.rightParen]) :
    ∃ (e' : Expr) (s' : Span), e'.Restores e ∧
      GivesAtom free (us ++ rest) (.ok (.paren e' s', rest)) := by
  obtain ⟨t, us', v, rfl, ht, hus', hv⟩ := exists_between hus
  obtain ⟨e', he', hgives⟩ := he true hus' (closes_cons (by rw [hv]; rfl) rest)
  refine ⟨e', t.span.join v.span, he', ?_⟩
  simp only [List.cons_append, List.append_assoc, List.nil_append]
  exact givesAtom_paren (ahead_cons free (by simp [ht])) ht hgives
    (ahead_cons true (by simp [hv])) hv

/-- Parentheses are closed whatever is in them. -/
theorem isClosed_paren (he : Stands e) : IsClosed (.paren e s) := by
  refine isClosed_of_givesAtom fun free us rest hus => ?_
  rw [Expr.tokens] at hus
  obtain ⟨e', s', he', hgives⟩ := exists_givesAtom_paren free rest he hus
  refine ⟨.paren e' s', ?_, hgives⟩
  simp only [Expr.Restores, Expr.parenthesized, Expr.unspanned]
  rw [he']

theorem isClosed_list (hes : ∀ e ∈ es, Stands e) : IsClosed (.list es s) := by
  refine isClosed_of_givesAtom fun free us rest hus => ?_
  rw [Expr.tokens, Expr.tokensAll_eq_map] at hus
  obtain ⟨t, us', v, rfl, ht, hus', hv⟩ := exists_between hus
  obtain ⟨es', hes', hgives⟩ := exists_givesExprs rest rfl (by simp) hes hus' hv
  simp only [List.cons_append, List.append_assoc, List.nil_append]
  refine ⟨_, ?_, givesAtom_bracket (ahead_cons free (by simp [ht])) ht hgives⟩
  simp only [Expr.Restores, Expr.parenthesized, Expr.unspanned]
  rw [hes']

/-- A name and a colon start a record. -/
theorem startsRecord_eq_true {name : String} (ht : t.token = .ident name) (hv : v.token = .colon)
    (ts : List Lexeme) : startsRecord (t :: v :: ts) = true := by
  rw [startsRecord, skipNewlines_cons (by simp [ht])]
  simp only [ht, hv]

/-- Anything else does not. -/
theorem startsRecord_eq_false (ht : t.token ≠ .newline)
    (h : (∀ name, t.token ≠ .ident name) ∨ ∀ u ∈ ts.head?, u.token ≠ .colon) :
    startsRecord (t :: ts) = false := by
  rw [startsRecord, skipNewlines_cons ht]
  split
  · next heq =>
    cases heq
    split
    · next hname hcolon =>
      rcases h with h | h
      · exact absurd hname (h _)
      · exact absurd hcolon (h _ rfl)
    · rfl
  · rfl

/-- A record that is not empty is read again as one, since its first name is followed by a colon. -/
theorem isClosed_record {fields : List (String × Expr)} (hfields : ∀ f ∈ fields, Stands f.2)
    (hne : fields ≠ []) : IsClosed (.record fields s) := by
  refine isClosed_of_givesAtom fun free us rest hus => ?_
  rw [Expr.tokens, Expr.fieldTokens_eq_map] at hus
  obtain ⟨t, us', v, rfl, ht, hus', hv⟩ := exists_between hus
  obtain ⟨fields', hfields', hgives⟩ := exists_givesFields hfields hne hus' hv
  have hrecord : startsRecord (us' ++ v :: rest) = true := by
    obtain ⟨f, fields, rfl⟩ := List.exists_cons_of_ne_nil hne
    obtain ⟨more, hmore⟩ := exists_intercalate_cons [Token.comma]
      (.ident f.1 :: .colon :: f.2.tokens)
      (fields.map fun f => .ident f.1 :: .colon :: f.2.tokens)
    rw [List.map_cons, hmore] at hus'
    obtain ⟨us₁, us₂, rfl, h₁, -⟩ := List.map_eq_append_iff.1 hus'
    obtain ⟨x, y, value, rfl, hx, hy, -⟩ := exists_field h₁
    exact startsRecord_eq_true hx hy _
  simp only [List.cons_append, List.append_assoc, List.nil_append]
  refine ⟨_, ?_, givesAtom_record (ahead_cons free (by simp [ht])) ht hrecord hgives⟩
  simp only [Expr.Restores, Expr.parenthesized, Expr.unspanned]
  rw [hfields']

/-- No block starts like a record. -/
theorem startsRecord_of_block
    (hus : us.map Lexeme.token = [.semicolon].intercalate (es.map Expr.tokens))
    (hv : v.token = .rightBrace) : startsRecord (us ++ v :: rest) = false := by
  cases es with
  | nil =>
    obtain rfl := List.map_eq_nil_iff.1 hus
    exact startsRecord_eq_false (by simp [hv]) (.inl fun _ => by simp [hv])
  | cons e es =>
    obtain ⟨first, others, hopens, hfirst, hothers⟩ :=
      (opens_intercalate .semicolon (by simp) e.opens_tokens (es.map Expr.tokens)).append
        (t := .rightBrace) (by simp) (rest.map Lexeme.token)
    have hall : (us ++ v :: rest).map Lexeme.token = first :: others := by
      rw [← hopens, List.map_append, List.map_cons, hus, hv, List.map_cons]
    obtain ⟨u, us', heq, rfl, hus'⟩ := List.map_eq_cons_iff.1 hall
    rw [heq]
    refine startsRecord_eq_false (ne_newline_of_isSome hfirst) (.inr fun w hw hcolon => hothers ?_)
    rw [← hus', List.head?_map, hw, Option.map_some, hcolon]

/-- A block is never taken for a record, since no statement begins with a name and a colon. -/
theorem isClosed_block (hes : ∀ e ∈ es, Stands e) : IsClosed (.block es s) := by
  refine isClosed_of_givesAtom fun free us rest hus => ?_
  rw [Expr.tokens, Expr.tokensAll_eq_map] at hus
  obtain ⟨t, us', v, rfl, ht, hus', hv⟩ := exists_between hus
  obtain ⟨es', hes', hgives⟩ := exists_givesStatements hes hus' hv
  simp only [List.cons_append, List.append_assoc, List.nil_append]
  refine ⟨_, ?_, givesAtom_block (ahead_cons free (by simp [ht])) ht
    (startsRecord_of_block hus' hv) hgives (ahead_cons free (by simp [hv])) hv⟩
  simp only [Expr.Restores, Expr.parenthesized, Expr.unspanned]
  rw [hes']

/-! ### Calls and fields -/

/-- A call is closed if its callee is; any other callee is printed between parentheses. -/
theorem isClosed_call {f : Expr} (hplain : IsPlainCallee f) (hf : IsClosed f)
    (hes : ∀ e ∈ es, Stands e) : IsClosed (.call f es s) := by
  intro free us rest hus
  rw [Expr.tokens, Expr.tokensAll_eq_map, callTokens_plain hplain, plainCallTokens] at hus
  obtain ⟨us₁, us₂, rfl, h₁, h₂⟩ := List.map_eq_append_iff.1 hus
  obtain ⟨t, us', v, rfl, ht, hus', hv⟩ := exists_between h₂
  obtain ⟨es', hes', hargs⟩ := exists_givesExprs rest rfl (by simp) hes hus' hv
  simp only [List.cons_append, List.append_assoc, List.nil_append]
  by_cases hbare : f.isBareCallee = true
  · rw [if_pos hbare] at h₁
    obtain ⟨f', hf', hgives⟩ := hf free (t :: (us' ++ v :: rest)) h₁
    refine ⟨.call f' es' (f'.span.join v.span), ?_, fun r hr =>
      hgives r (givesPostfix_args ht hargs hr)⟩
    simp only [Expr.Restores, Expr.parenthesized, Expr.unspanned, if_pos hbare]
    rw [hf', hes']
  · -- the callee is read between the parentheses that were put around it
    rw [if_neg hbare] at h₁
    obtain ⟨f', s', hf', hgives⟩ := exists_givesAtom_paren free
      (t :: (us' ++ v :: rest)) hf.stands h₁
    refine ⟨.call (.paren f' s') es' (s'.join v.span), ?_, fun r hr =>
      givesOperand hgives (givesPostfix_args ht hargs hr)⟩
    simp only [Expr.Restores, Expr.parenthesized, Expr.unspanned, if_neg hbare]
    rw [hf', hes']

/-- A field is closed if what it is taken of is. -/
theorem isClosed_field {name : String} (he : IsClosed e) : IsClosed (.field e name s) := by
  intro free us rest hus
  rw [Expr.tokens] at hus
  obtain ⟨us₁, us₂, rfl, h₁, h₂⟩ := List.map_eq_append_iff.1 hus
  obtain ⟨t, us₃, rfl, ht, h₃⟩ := List.map_eq_cons_iff.1 h₂
  obtain ⟨u, us₄, rfl, hu, hnil⟩ := List.map_eq_cons_iff.1 h₃
  obtain rfl := List.map_eq_nil_iff.1 hnil
  obtain ⟨e', he', hgives⟩ := he free (t :: u :: rest) h₁
  simp only [List.cons_append, List.append_assoc, List.nil_append]
  refine ⟨.field e' name (e'.span.join u.span), ?_, fun r hr =>
    hgives r (givesPostfix_field ht (ahead_cons free (by simp [hu])) hu hr)⟩
  simp only [Expr.Restores, Expr.parenthesized, Expr.unspanned]
  rw [he']

end Parser

end PipeLang
