import PipeLang.Proofs.Parsing
import PipeLang.Proofs.Printing

/-!
# Reading the tokens of an expression

The parser looks at no more than one token after what it reads.  So when it has read an expression
and then meets the tokens of the same expression, with a token after them that is `Alike` the one
it stopped at, it reads the same expression again.  This is stated for each level of the grammar
(`RereadsExpr`, `RereadsOperand`, `RereadsAtom`, `RereadsInfix`), and there is one lemma for each
way to build an expression.

An expression that ends with a token of its own is read back whatever follows (`IsClosed`); so is
the callee of a call or the target of a field.  One that stands between commas, parentheses,
brackets or semicolons is read back before any of these (`Stands`).

What is read back is the same tree up to spans and up to the parentheses around callees
(`Expr.Restores`).
-/

namespace PipeLang

/-! ### The same tree -/

mutual

/-- The expression without its spans. -/
def Expr.unspanned : Expr → Expr
  | .lit literal _ => .lit literal .nowhere
  | .sym name _ => .sym name .nowhere
  | .call func args _ => .call func.unspanned (Expr.unspannedAll args) .nowhere
  | .paren inner _ => .paren inner.unspanned .nowhere
  | .block stmts _ => .block (Expr.unspannedAll stmts) .nowhere
  | .list items _ => .list (Expr.unspannedAll items) .nowhere
  | .record fields _ => .record (Expr.unspannedFields fields) .nowhere
  | .field target name _ => .field target.unspanned name .nowhere
  | .lambda params body _ => .lambda params body.unspanned .nowhere
  | .ifThen cond yes _ => .ifThen cond.unspanned yes.unspanned .nowhere
  | .ifElse cond yes no _ => .ifElse cond.unspanned yes.unspanned no.unspanned .nowhere
  | .assign target value scope _ => .assign target.unspanned value.unspanned scope .nowhere
  | .inline label ref _ => .inline label ref .nowhere

/-- Each of the expressions without its spans. -/
def Expr.unspannedAll : List Expr → List Expr
  | [] => []
  | e :: rest => e.unspanned :: Expr.unspannedAll rest

/-- Each of the named expressions without its spans. -/
def Expr.unspannedFields : List (String × Expr) → List (String × Expr)
  | [] => []
  | (name, e) :: rest => (name, e.unspanned) :: Expr.unspannedFields rest

end

mutual

/-- The expression with a pair of parentheses around each callee that is printed with one. -/
def Expr.parenthesized : Expr → Expr
  | .lit literal s => .lit literal s
  | .sym name s => .sym name s
  | .call func args s =>
    .call (if func.isBareCallee then func.parenthesized else .paren func.parenthesized func.span)
      (Expr.parenthesizedAll args) s
  | .paren inner s => .paren inner.parenthesized s
  | .block stmts s => .block (Expr.parenthesizedAll stmts) s
  | .list items s => .list (Expr.parenthesizedAll items) s
  | .record fields s => .record (Expr.parenthesizedFields fields) s
  | .field target name s => .field target.parenthesized name s
  | .lambda params body s => .lambda params body.parenthesized s
  | .ifThen cond yes s => .ifThen cond.parenthesized yes.parenthesized s
  | .ifElse cond yes no s => .ifElse cond.parenthesized yes.parenthesized no.parenthesized s
  | .assign target value scope s => .assign target.parenthesized value.parenthesized scope s
  | .inline label ref s => .inline label ref s

/-- Each of the expressions with parentheses around its callees. -/
def Expr.parenthesizedAll : List Expr → List Expr
  | [] => []
  | e :: rest => e.parenthesized :: Expr.parenthesizedAll rest

/-- Each of the named expressions with parentheses around its callees. -/
def Expr.parenthesizedFields : List (String × Expr) → List (String × Expr)
  | [] => []
  | (name, e) :: rest => (name, e.parenthesized) :: Expr.parenthesizedFields rest

end

/-- The expression is another one up to spans and to the parentheses around callees. -/
def Expr.Restores (e' e : Expr) : Prop := e'.unspanned = e.parenthesized.unspanned

/-! ### First tokens -/

/-- The tokens start an expression, and the second one is no colon. -/
def Opens (ts : List Token) : Prop :=
  ∃ t rest, ts = t :: rest ∧ (Start.ofToken? t).isSome ∧ rest.head? ≠ some .colon

/-- What opens an expression does so with any token behind it but a colon. -/
theorem Opens.append {ts : List Token} (h : Opens ts) {t : Token} (ht : t ≠ .colon)
    (rest : List Token) : Opens (ts ++ t :: rest) := by
  obtain ⟨first, others, rfl, hfirst, hothers⟩ := h
  refine ⟨first, _, rfl, hfirst, ?_⟩
  cases others with
  | nil => simpa using ht
  | cons second others => exact hothers

theorem Opens.head?_ne_colon {ts : List Token} (h : Opens ts) (rest : List Token) :
    (ts ++ rest).head? ≠ some .colon := by
  obtain ⟨first, others, rfl, hfirst, -⟩ := h
  rintro ⟨⟩
  cases hfirst

theorem opens_cons {t : Token} (ht : (Start.ofToken? t).isSome) {rest : List Token}
    (hrest : rest.head? ≠ some .colon) : Opens (t :: rest) := ⟨t, rest, rfl, ht, hrest⟩

/-- A list with separators begins with its first item. -/
theorem exists_intercalate_cons {α : Type} (sep x : List α) (xs : List (List α)) :
    ∃ more, sep.intercalate (x :: xs) = x ++ more := by
  cases xs with
  | nil => exact ⟨[], by simp⟩
  | cons y ys => exact ⟨sep ++ sep.intercalate (y :: ys), by simp⟩

theorem opens_intercalate (sep : Token) (hsep : sep ≠ .colon) {x : List Token} (hx : Opens x)
    (xs : List (List Token)) : Opens ([sep].intercalate (x :: xs)) := by
  cases xs with
  | nil => rwa [List.intercalate_singleton]
  | cons y ys =>
    rw [List.intercalate_cons_cons, List.append_assoc]
    exact hx.append hsep _

/-- What stands between two brackets starts with no colon if none of the parts does. -/
theorem head?_intercalate_ne_colon {sep close : Token} (hclose : close ≠ .colon)
    (xs : List (List Token)) (hxs : ∀ x ∈ xs.head?, Opens x) :
    ([sep].intercalate xs ++ [close]).head? ≠ some .colon := by
  cases xs with
  | nil => simpa using hclose
  | cons x xs =>
    obtain ⟨more, hmore⟩ := exists_intercalate_cons [sep] x xs
    rw [hmore, List.append_assoc]
    exact (hxs x rfl).head?_ne_colon _

theorem operatorToken_ne_colon (op : String) : operatorToken op ≠ .colon := by
  unfold operatorToken
  cases hfind : plainOperators.find? fun t => t.spelling == op with
  | none => simp
  | some t =>
    have hall : ∀ t ∈ plainOperators, t ≠ .colon := by decide
    exact hall t (List.mem_of_find?_eq_some hfind)

theorem isSome_signToken? {op : String} {t : Token} (h : signToken? op = some t) :
    (Start.ofToken? t).isSome := by
  unfold signToken? at h
  split at h
  · cases h; rfl
  · split at h
    · cases h; rfl
    · cases h

/-- A call opens with its callee, a printed operator or sign with its first operand or itself. -/
theorem opens_callTokens {func : Expr} {callee : List Token} {args : List (List Token)}
    (hcallee : Opens callee) (hargs : ∀ x ∈ args.head?, Opens x) :
    Opens (callTokens func callee args) := by
  have hplain : ∀ func args, Opens (plainCallTokens func callee args) := by
    intro func args
    refine Opens.append ?_ (by simp) _
    split
    · exact hcallee
    · exact opens_cons rfl (hcallee.head?_ne_colon _)
  unfold callTokens
  split
  · split
    · exact (hargs _ rfl).append (operatorToken_ne_colon _) _
    · exact hplain _ _
  · split
    · next ht =>
      have hhead := (hargs _ rfl).head?_ne_colon []
      rw [List.append_nil] at hhead
      exact opens_cons (isSome_signToken? ht) hhead
    · exact hplain _ _
  · exact hplain _ _

/-- The first token of an expression starts one, and no colon is the second. -/
theorem Expr.opens_tokens (e : Expr) : Opens e.tokens := by
  cases e with
  | lit literal s =>
    rw [Expr.tokens]
    refine opens_cons ?_ (by simp)
    cases literal with
    | bool b => cases b <;> rfl
    | _ => rfl
  | sym name s =>
    rw [Expr.tokens, nameToken]
    refine opens_cons ?_ (by simp)
    split <;> rfl
  -- the tokens of a call begin with those of a part of it, by induction
  | call func args s =>
    rw [Expr.tokens, Expr.tokensAll_eq_map]
    refine opens_callTokens func.opens_tokens fun x hx => ?_
    cases args with
    | nil => cases hx
    | cons first rest => cases hx; exact first.opens_tokens
  | paren inner s =>
    rw [Expr.tokens]
    exact opens_cons rfl (inner.opens_tokens.head?_ne_colon _)
  | block stmts s =>
    rw [Expr.tokens, Expr.tokensAll_eq_map]
    refine opens_cons rfl (head?_intercalate_ne_colon (by simp) _ fun x hx => ?_)
    cases stmts with
    | nil => cases hx
    | cons first rest => cases hx; exact first.opens_tokens
  | list items s =>
    rw [Expr.tokens, Expr.tokensAll_eq_map]
    refine opens_cons rfl (head?_intercalate_ne_colon (by simp) _ fun x hx => ?_)
    cases items with
    | nil => cases hx
    | cons first rest => cases hx; exact first.opens_tokens
  | record fields s =>
    rw [Expr.tokens, Expr.fieldTokens_eq_map]
    refine opens_cons rfl ?_
    cases fields with
    | nil => simp
    | cons first rest =>
      obtain ⟨more, hmore⟩ := exists_intercalate_cons [Token.comma]
        (.ident first.1 :: .colon :: first.2.tokens)
        (rest.map fun f => .ident f.1 :: .colon :: f.2.tokens)
      simp [hmore]
  -- so do those of a field and of an assignment
  | field target name s =>
    rw [Expr.tokens]
    exact target.opens_tokens.append (by simp) _
  | lambda params body s =>
    rw [Expr.tokens]
    exact opens_cons rfl (by simp)
  | ifThen cond yes s =>
    rw [Expr.tokens]
    exact opens_cons rfl (by simp)
  | ifElse cond yes no s =>
    rw [Expr.tokens]
    exact opens_cons rfl (by simp)
  | assign target value scope s =>
    rw [Expr.tokens]
    refine target.opens_tokens.append ?_ _
    cases scope <;> simp [AssignScope.token]
  | inline label ref s =>
    rw [Expr.tokens]
    exact opens_cons rfl (by simp)

/-! ### After an expression -/

/-- The tokens that end an expression of any kind. -/
def Token.isCloser : Token → Bool
  | .rightParen | .rightBracket | .rightBrace | .comma | .semicolon => true
  | _ => false

namespace Parser

/-- Nothing follows, or a token that ends every expression. -/
def Closes (ts : List Lexeme) : Prop := ∀ t ∈ ts.head?, t.token.isCloser = true

/-- Nothing to skip follows, no arguments and no field. -/
def EndsOperand (ts : List Lexeme) : Prop :=
  ∀ t ∈ ts.head?, t.token ≠ .newline ∧ t.token ≠ .leftParen ∧ t.token ≠ .dollar

/-- Where the parser looks for the end of an expression, both mean the same to it. -/
def Alike (ts us : List Lexeme) : Prop :=
  ts.head?.map Lexeme.token = us.head?.map Lexeme.token ∨ Closes ts ∧ Closes us

variable {free : Bool} {least : Nat} {e e' lhs rhs : Expr} {es : List Expr} {s s' : Span}
  {t u v : Lexeme} {op : InfixOp} {ts us mid rest after : List Lexeme}

/-- What can be said about the next token carries over if it holds of all that end expressions. -/
theorem Alike.forall_head (h : Alike ts us) {p : Token → Prop}
    (hclose : ∀ t, t.isCloser = true → p t) (hts : ∀ t ∈ ts.head?, p t.token) :
    ∀ u ∈ us.head?, p u.token := by
  intro u hu
  rcases h with h | ⟨-, hus⟩
  · rw [hu, Option.map_some] at h
    obtain ⟨t, ht, htoken⟩ := Option.map_eq_some_iff.1 h
    exact htoken ▸ hts t ht
  · exact hclose _ (hus u hu)

theorem alike_cons (h : t.token = u.token) (ts us : List Lexeme) : Alike (t :: ts) (u :: us) :=
  .inl (congrArg some h)

/-- What closes an expression neither continues it nor is passed over. -/
theorem ne_of_isCloser {t : Token} (h : t.isCloser = true) :
    t ≠ .newline ∧ t ≠ .leftParen ∧ t ≠ .dollar := by
  cases t <;> first | (cases h; done) | exact ⟨by simp, by simp, by simp⟩

theorem Closes.endsOperand (h : Closes ts) : EndsOperand ts := fun t ht => ne_of_isCloser (h t ht)

/-- Where an operand ends depends on the tokens alone. -/
theorem EndsOperand.of_alike (hts : EndsOperand ts) (h : Alike ts us) : EndsOperand us :=
  h.forall_head (p := fun t => t ≠ .newline ∧ t ≠ .leftParen ∧ t ≠ .dollar)
    (fun _ => ne_of_isCloser) hts

theorem closes_nil : Closes [] := by simp [Closes]

theorem closes_cons (h : t.token.isCloser = true) (ts : List Lexeme) : Closes (t :: ts) := by
  rintro u ⟨⟩
  exact h

/-- Where an operand ends, no call or field follows. -/
theorem EndsOperand.givesPostfix (h : EndsOperand ts) : GivesPostfix free e ts (.ok (e, ts)) :=
  givesPostfix_stop fun t ht => (h t ht).2

theorem EndsOperand.ahead_eq (h : EndsOperand ts) : ahead free ts = ts :=
  ahead_eq_self free fun t ht => (h t ht).1

/-! ### Levels of the grammar -/

/-- The expression is read back before whatever is like `after`. -/
def RereadsExpr (least : Nat) (after : List Lexeme) (e : Expr) : Prop :=
  ∀ (free : Bool) {us rest}, us.map Lexeme.token = e.tokens → Alike after rest →
    ∃ e' : Expr, e'.Restores e ∧ GivesExpr free least (us ++ rest) (.ok (e', rest))

/-- It is read back as an operand. -/
def RereadsOperand (after : List Lexeme) (e : Expr) : Prop :=
  ∀ (free : Bool) {us rest}, us.map Lexeme.token = e.tokens → Alike after rest →
    ∃ e' : Expr, e'.Restores e ∧ GivesOperand free (us ++ rest) (.ok (e', rest))

/-- It is read back as an atom. -/
def RereadsAtom (after : List Lexeme) (e : Expr) : Prop :=
  ∀ (free : Bool) {us rest}, us.map Lexeme.token = e.tokens → Alike after rest →
    ∃ e' : Expr, e'.Restores e ∧ GivesAtom free (us ++ rest) (.ok (e', rest))

/-- What follows the operand `lhs` in the expression `e` is read back after it; where this starts,
the parser meets what it met at `ts`. -/
def RereadsInfix (least : Nat) (lhs : Expr) (ts : List Lexeme) (e : Expr)
    (after : List Lexeme) : Prop :=
  ∃ more, e.tokens = lhs.tokens ++ more ∧
    ∀ (free : Bool) {us rest}, us.map Lexeme.token = more → Alike after rest →
      Alike ts (us ++ rest) ∧ ∀ lhs' : Expr, lhs'.Restores lhs →
        ∃ e' : Expr, e'.Restores e ∧ GivesInfix free least lhs' (us ++ rest) (.ok (e', rest))

/-- The expression is read back whatever follows, and arguments and fields after it apply to it. -/
def IsClosed (e : Expr) : Prop :=
  ∀ (free : Bool) {us} (rest : List Lexeme), us.map Lexeme.token = e.tokens →
    ∃ e' : Expr, e'.Restores e ∧ ∀ r, GivesPostfix free e' rest r → GivesOperand free (us ++ rest) r

/-- The expression is read back before a token that ends every expression. -/
def Stands (e : Expr) : Prop :=
  ∀ (free : Bool) {us rest}, us.map Lexeme.token = e.tokens → Closes rest →
    ∃ e' : Expr, e'.Restores e ∧ GivesExpr free 0 (us ++ rest) (.ok (e', rest))

theorem RereadsExpr.stands (h : RereadsExpr 0 after e) (hafter : Closes after) : Stands e :=
  fun free _ _ hus hrest => h free hus (.inr ⟨hafter, hrest⟩)

theorem ofToken?_of_isCloser {t : Token} (h : t.isCloser = true) : InfixOp.ofToken? t = none := by
  cases t <;> first | rfl | cases h

/-- Where an expression is closed, no operator follows. -/
theorem Closes.givesInfix (h : Closes ts) : GivesInfix free least e ts (.ok (e, ts)) := by
  refine givesInfix_stop h.endsOperand.ahead_eq fun t ht op hop => ?_
  rw [ofToken?_of_isCloser (h t ht)] at hop
  cases hop

/-- What is read whatever follows is read before a closing token. -/
theorem IsClosed.stands (h : IsClosed e) : Stands e := by
  intro free us rest hus hrest
  obtain ⟨e', he', hgives⟩ := h free rest hus
  exact ⟨e', he', givesExpr (hgives _ hrest.endsOperand.givesPostfix) hrest.givesInfix⟩

theorem IsClosed.rereadsOperand (h : IsClosed e) (hafter : EndsOperand after) :
    RereadsOperand after e := by
  intro free us rest hus hrest
  obtain ⟨e', he', hgives⟩ := h free rest hus
  exact ⟨e', he', hgives _ (hafter.of_alike hrest).givesPostfix⟩

/-- An atom that is reread is so as an operand, if no call or field follows. -/
theorem RereadsAtom.rereadsOperand (h : RereadsAtom after e) (hafter : EndsOperand after) :
    RereadsOperand after e := by
  intro free us rest hus hrest
  obtain ⟨e', he', hgives⟩ := h free hus hrest
  exact ⟨e', he', givesOperand hgives (hafter.of_alike hrest).givesPostfix⟩

/-- An expression is reread by its operand and the operators behind it. -/
theorem rereadsExpr (ho : RereadsOperand mid lhs) (hi : RereadsInfix least lhs mid e after) :
    RereadsExpr least after e := by
  intro free us rest hus hrest
  obtain ⟨more, htokens, hmore⟩ := hi
  rw [htokens] at hus
  obtain ⟨us₁, us₂, rfl, h₁, h₂⟩ := List.map_eq_append_iff.1 hus
  obtain ⟨hmid, hoperator⟩ := hmore free h₂ hrest
  obtain ⟨lhs', hlhs, hoperand⟩ := ho free h₁ hmid
  obtain ⟨e', he', hgives⟩ := hoperator lhs' hlhs
  rw [List.append_assoc]
  exact ⟨e', he', givesExpr hoperand hgives⟩

/-! ### Operators -/

/-- Restored operands give a restored operator. -/
theorem restores_apply (ht : InfixOp.ofToken? t.token = some op) {lhs' rhs' : Expr}
    (hlhs : lhs'.Restores lhs) (hrhs : rhs'.Restores rhs) (s' : Span) :
    (op.apply s' lhs' rhs').Restores (op.apply s lhs rhs) := by
  obtain ⟨left, right, form⟩ := op
  cases form with
  | call name =>
    simp only [InfixOp.apply, Expr.Restores, Expr.parenthesized, Expr.parenthesizedAll,
      Expr.unspanned, Expr.unspannedAll, Expr.isBareCallee, if_true]
    rw [hlhs, hrhs]
  | assign scope =>
    simp only [InfixOp.apply, Expr.Restores, Expr.parenthesized, Expr.unspanned]
    rw [hlhs, hrhs]

/-- No operator follows that binds tightly enough. -/
theorem rereadsInfix_stop (hafter : EndsOperand after)
    (hstop : ∀ t ∈ after.head?, ∀ op, InfixOp.ofToken? t.token = some op → op.left < least) :
    RereadsInfix least e after e after := by
  refine ⟨[], (List.append_nil _).symm, fun free us rest hus hrest => ?_⟩
  obtain rfl := List.map_eq_nil_iff.1 hus
  refine ⟨hrest, fun lhs' hlhs => ⟨lhs', hlhs, ?_⟩⟩
  refine givesInfix_stop (hafter.of_alike hrest).ahead_eq ?_
  exact hrest.forall_head (p := fun t => ∀ op, InfixOp.ofToken? t = some op → op.left < least)
    (fun t ht op hop => by rw [ofToken?_of_isCloser ht] at hop; cases hop) hstop

theorem ne_newline_of_ofToken? {t : Token} (h : InfixOp.ofToken? t = some op) : t ≠ .newline := by
  rintro rfl
  cases h

theorem ne_newline_of_isSome {t : Token} (h : (Start.ofToken? t).isSome) : t ≠ .newline := by
  rintro rfl
  cases h

/-- The lexemes of an expression, its first one set apart. -/
theorem exists_cons_of_opens {ts : List Token} (h : Opens ts) (hus : us.map Lexeme.token = ts) :
    ∃ u us', us = u :: us' ∧ (Start.ofToken? u.token).isSome := by
  obtain ⟨first, others, rfl, hfirst, -⟩ := h
  obtain ⟨u, us', rfl, rfl, -⟩ := List.map_eq_cons_iff.1 hus
  exact ⟨u, us', rfl, hfirst⟩

/-- What opens an expression is no newline. -/
theorem skipNewlines_of_opens {ts : List Token} (h : Opens ts) (hus : us.map Lexeme.token = ts) :
    skipNewlines (us ++ rest) = us ++ rest := by
  obtain ⟨u, us', rfl, hu⟩ := exists_cons_of_opens h hus
  exact skipNewlines_cons (ne_newline_of_isSome hu)

/-- Line breaks may come before the expression, but none do. -/
theorem RereadsExpr.skipNewlines (h : RereadsExpr least after e) (free : Bool)
    (hus : us.map Lexeme.token = e.tokens) (hrest : Alike after rest) :
    ∃ e' : Expr, e'.Restores e ∧
      GivesExpr free least (skipNewlines (us ++ rest)) (.ok (e', rest)) := by
  rw [skipNewlines_of_opens e.opens_tokens hus]
  exact h free hus hrest

/-- A printed operator is read again as itself, and takes the printed operand on its right. -/
theorem rereadsInfix_cons (ht : InfixOp.ofToken? t.token = some op)
    (hspecial : ∀ name, t.token = .special name → IsSpecial name) (hleast : least ≤ op.left)
    (hrhs : RereadsExpr op.right mid rhs)
    (hoperator : RereadsInfix least (op.apply t.span lhs rhs) mid e after) :
    RereadsInfix least lhs (t :: ts) e after := by
  obtain ⟨more, htokens, hmore⟩ := hoperator
  rw [tokens_apply ht hspecial, List.append_assoc] at htokens
  refine ⟨_, htokens, fun free us rest hus hrest => ?_⟩
  obtain ⟨u, us', rfl, hu, hus'⟩ := List.map_eq_cons_iff.1 hus
  obtain ⟨us₁, us₂, rfl, h₁, h₂⟩ := List.map_eq_append_iff.1 hus'
  obtain ⟨hmid, hgives⟩ := hmore free h₂ hrest
  refine ⟨alike_cons hu.symm _ _, fun lhs' hlhs => ?_⟩
  obtain ⟨rhs', hrhs', hright⟩ := hrhs.skipNewlines free h₁ hmid
  have ht' : InfixOp.ofToken? u.token = some op := hu ▸ ht
  obtain ⟨e', he', hrest'⟩ := hgives _ (restores_apply ht hlhs hrhs' u.span)
  refine ⟨e', he', ?_⟩
  rw [List.cons_append, List.append_assoc]
  exact givesInfix_cons (ahead_cons free (ne_newline_of_ofToken? ht')) ht' hleast hright hrest'

/-- A printed sign is read back as an atom. -/
theorem rereadsAtom_sign {sign : String} (ht : Start.ofToken? t.token = some (.sign sign))
    (he : RereadsExpr Power.sign after e) : RereadsAtom after (.call (.sym sign s') [e] s) := by
  intro free us rest hus hrest
  rw [tokens_sign ht] at hus
  obtain ⟨u, us, rfl, hu, hus⟩ := List.map_eq_cons_iff.1 hus
  obtain ⟨e', he', hgives⟩ := he free hus hrest
  have ht' : Start.ofToken? u.token = some (.sign sign) := hu ▸ ht
  have hne := ne_newline_of_isSome (Option.isSome_of_eq_some ht')
  refine ⟨_, ?_, givesAtom_sign (ahead_cons free hne) ht' hgives⟩
  simp only [Expr.Restores, Expr.parenthesized, Expr.parenthesizedAll,
    Expr.unspanned, Expr.unspannedAll, Expr.isBareCallee, if_true]
  rw [he']

/-! ### Functions and conditionals -/

/-- The names of parameters are read one by one. -/
theorem paramNames_cons {name : String} (ht : t.token = nameToken name) (ts : List Lexeme) :
    paramNames (t :: ts) =
      (afterParam ts >>= fun (names, rest) => .ok (name :: names, rest)) := by
  unfold nameToken at ht
  rw [paramNames]
  split at ht
  · next hname => simp only [ht, hname]
  · simp only [ht]

/-- The printed parameters of a function are read again as they are. -/
theorem paramNames_of_tokens {params : List String}
    (hus : us.map Lexeme.token = [.comma].intercalate (params.map fun p => [nameToken p]))
    (hv : v.token = .rightParen) : paramNames (us ++ v :: rest) = .ok (params, rest) := by
  have hclose : paramNames (v :: rest) = .ok ([], rest) ∧
      afterParam (v :: rest) = .ok ([], rest) := by
    rw [paramNames, afterParam]
    simp only [hv, and_self]
  induction params generalizing us with
  | nil =>
    obtain rfl := List.map_eq_nil_iff.1 hus
    exact hclose.1
  | cons p params ih =>
    -- a last parameter is followed by the parenthesis, any other by a comma
    cases params with
    | nil =>
      obtain ⟨u, us, rfl, hu, hus⟩ := List.map_eq_cons_iff.1 hus
      obtain rfl := List.map_eq_nil_iff.1 hus
      rw [List.cons_append, paramNames_cons hu, List.nil_append, hclose.2, Outcome.ok_bind]
    | cons q params =>
      rw [List.map_cons, List.map_cons, List.intercalate_cons_cons] at hus
      obtain ⟨u, us₁, rfl, hu, hus₁⟩ := List.map_eq_cons_iff.1 hus
      obtain ⟨w, us₂, rfl, hw, hus₂⟩ := List.map_eq_cons_iff.1 hus₁
      have hafter : afterParam (w :: (us₂ ++ v :: rest)) = paramNames (us₂ ++ v :: rest) := by
        rw [afterParam]
        simp only [hw]
      rw [List.cons_append, List.cons_append, paramNames_cons hu, hafter, ih hus₂, Outcome.ok_bind]

/-- A printed function is read again with its parameters and its body. -/
theorem rereadsAtom_lambda {params : List String} (he : RereadsExpr Power.assign after e) :
    RereadsAtom after (.lambda params e s) := by
  intro free us rest hus hrest
  rw [Expr.tokens] at hus
  obtain ⟨us₁, us₂, rfl, h₁, h₂⟩ := List.map_eq_append_iff.1 hus
  obtain ⟨t, us₃, rfl, ht, h₃⟩ := List.map_eq_cons_iff.1 h₁
  obtain ⟨u, us₄, rfl, hu, hparams⟩ := List.map_eq_cons_iff.1 h₃
  obtain ⟨v, body, rfl, hv, hbody⟩ := List.map_eq_cons_iff.1 h₂
  obtain ⟨e', he', hgives⟩ := he.skipNewlines free hbody hrest
  simp only [List.cons_append, List.append_assoc]
  refine ⟨_, ?_, givesAtom_lambda (ahead_cons free (by simp [ht])) (by rw [ht]; rfl)
    (ahead_cons free (by simp [hu])) hu (paramNames_of_tokens hparams hv) hgives⟩
  simp only [Expr.Restores, Expr.parenthesized, Expr.unspanned]
  rw [he']

/-- Nothing that could be the alternative of a conditional follows. -/
theorem ne_elseWord_of_alike (hafter : ∀ t ∈ after.head?, t.token ≠ .newline ∧ t.token ≠ .elseWord)
    (h : Alike after rest) : ∀ t ∈ (skipNewlines rest).head?, t.token ≠ .elseWord := by
  have hrest := h.forall_head (p := fun t => t ≠ .newline ∧ t ≠ .elseWord)
    (by intro t ht; cases t <;> first | (cases ht; done) | exact ⟨by simp, by simp⟩) hafter
  have hskip : skipNewlines rest = rest := ahead_eq_self true fun t ht => (hrest t ht).1
  rw [hskip]
  exact fun t ht => (hrest t ht).2

/-- The lexemes of a conditional up to its condition. -/
theorem exists_conditional {cond yes : List Token}
    (hus : us.map Lexeme.token = .ifWord :: .leftParen :: cond ++ .rightParen :: yes) :
    ∃ w u inner v body, us = w :: u :: (inner ++ v :: body) ∧ w.token = .ifWord ∧
      u.token = .leftParen ∧ inner.map Lexeme.token = cond ∧ v.token = .rightParen ∧
      body.map Lexeme.token = yes := by
  obtain ⟨us₁, us₂, rfl, h₁, h₂⟩ := List.map_eq_append_iff.1 hus
  obtain ⟨w, us₃, rfl, hw, h₃⟩ := List.map_eq_cons_iff.1 h₁
  obtain ⟨u, inner, rfl, hu, hinner⟩ := List.map_eq_cons_iff.1 h₃
  obtain ⟨v, body, rfl, hv, hbody⟩ := List.map_eq_cons_iff.1 h₂
  exact ⟨w, u, inner, v, body, rfl, hw, hu, hinner, hv, hbody⟩

/-- A printed conditional is read again, if no alternative follows it. -/
theorem rereadsAtom_ifThen {cond yes : Expr} (hcond : Stands cond)
    (hyes : RereadsExpr Power.assign after yes)
    (hafter : ∀ t ∈ after.head?, t.token ≠ .newline ∧ t.token ≠ .elseWord) :
    RereadsAtom after (.ifThen cond yes s) := by
  intro free us rest hus hrest
  rw [Expr.tokens] at hus
  obtain ⟨w, u, inner, v, body, rfl, hw, hu, hinner, hv, hbody⟩ := exists_conditional hus
  obtain ⟨cond', hcond', hgives⟩ := hcond true hinner
    (closes_cons (by rw [hv]; rfl) (body ++ rest))
  obtain ⟨yes', hyes', hgives'⟩ := hyes.skipNewlines free hbody hrest
  simp only [List.cons_append, List.append_assoc]
  refine ⟨_, ?_, givesAtom_ifThen (ahead_cons free (by simp [hw])) hw
    (ahead_cons free (by simp [hu])) hu hgives (ahead_cons true (by simp [hv])) hv hgives'
    (ne_elseWord_of_alike hafter hrest)⟩
  simp only [Expr.Restores, Expr.parenthesized, Expr.unspanned]
  rw [hcond', hyes']

/-- The alternative belongs to the conditional right before it. -/
theorem rereadsAtom_ifElse {cond yes no : Expr} (hcond : Stands cond) (ht : t.token = .elseWord)
    (hyes : RereadsExpr Power.assign (t :: ts) yes) (hno : RereadsExpr Power.assign after no) :
    RereadsAtom after (.ifElse cond yes no s) := by
  intro free us rest hus hrest
  rw [Expr.tokens, List.append_assoc] at hus
  obtain ⟨w, u, inner, v, body, rfl, hw, hu, hinner, hv, hbody⟩ := exists_conditional hus
  obtain ⟨us₁, us₂, rfl, h₁, h₂⟩ := List.map_eq_append_iff.1 hbody
  obtain ⟨x, us₃, rfl, hx, h₃⟩ := List.map_eq_cons_iff.1 h₂
  obtain ⟨cond', hcond', hgives⟩ := hcond true hinner
    (closes_cons (by rw [hv]; rfl) (us₁ ++ x :: (us₃ ++ rest)))
  obtain ⟨yes', hyes', hgives'⟩ := hyes.skipNewlines free h₁
    (alike_cons (ht.trans hx.symm) ts (us₃ ++ rest))
  obtain ⟨no', hno', hgives''⟩ := hno.skipNewlines free h₃ hrest
  simp only [List.cons_append, List.append_assoc]
  refine ⟨_, ?_, givesAtom_ifElse (ahead_cons free (by simp [hw])) hw
    (ahead_cons free (by simp [hu])) hu hgives (ahead_cons true (by simp [hv])) hv hgives'
    (skipNewlines_cons (by simp [hx])) hx hgives''⟩
  simp only [Expr.Restores, Expr.parenthesized, Expr.unspanned]
  rw [hcond', hyes', hno']

end Parser

end PipeLang
