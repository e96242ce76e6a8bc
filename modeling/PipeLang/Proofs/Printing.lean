import PipeLang.Expr.Printer
import PipeLang.Parser.Start
import PipeLang.Proofs.Lexing

/-!
# The tokens of an expression in print

`Expr.tokens` are the tokens of the printed form of an expression.  `Prints e` says that the
printed form is cut into them wherever the text after it is delimited.  There is one lemma for each
kind of node: a node prints into its tokens if its parts do and its names, its operator and its
literal can be spelled.
-/

namespace PipeLang

/-! ### Tokens -/

/-- The token of a symbol. -/
def nameToken (name : String) : Token := if name = placeholder then .dot else .ident name

/-- The token of a literal. -/
def Literal.token : Literal → Token
  | null => .nullWord
  | bool b => if b then .trueWord else .falseWord
  | int n => .int n
  | float x => .float x
  | str s => .str s

/-- The token of an assignment. -/
def AssignScope.token : AssignScope → Token
  | inner => .leftArrow
  | outer => .superArrow

/-- The infix operators of fixed spelling that stand for calls. -/
def plainOperators : List Token :=
  [.orOr, .andAnd, .eqEq, .bangEq, .less, .lessEq, .greater, .greaterEq, .plus, .minus, .star,
    .slash]

/-- The token of an operator between its operands. -/
def operatorToken (op : String) : Token :=
  (plainOperators.find? fun t => t.spelling == op).getD (.special op)

/-- The token of an operator before its operand. -/
def signToken? (op : String) : Option Token :=
  if op = "neg" then some .minus else if op = "!" then some .bang else none

/-- Whether a callee stands before its arguments as it is: a symbol, or in parentheses already. -/
def Expr.isBareCallee : Expr → Bool
  | .sym .. | .paren .. => true
  | _ => false

/-- The tokens of a call with its arguments in parentheses, from those of its parts. -/
def plainCallTokens (func : Expr) (callee : List Token) (args : List (List Token)) : List Token :=
  (if func.isBareCallee then callee else .leftParen :: callee ++ [.rightParen]) ++
    .leftParen :: ([.comma].intercalate args ++ [.rightParen])

/-- The tokens of a call from those of its parts. -/
def callTokens (func : Expr) (callee : List Token) (args : List (List Token)) : List Token :=
  match func, args with
  | .sym op _, [a, b] =>
    if isOperator op then a ++ operatorToken op :: b else plainCallTokens func callee args
  | .sym op _, [a] =>
    match signToken? op with
    | some t => t :: a
    | none => plainCallTokens func callee args
  | _, _ => plainCallTokens func callee args

mutual

/-- The tokens of the expression in print. -/
def Expr.tokens : Expr → List Token
  | .lit literal _ => [literal.token]
  | .sym name _ => [nameToken name]
  | .call func args _ => callTokens func func.tokens (Expr.tokensAll args)
  | .paren inner _ => .leftParen :: inner.tokens ++ [.rightParen]
  | .block stmts _ => .leftBrace :: [.semicolon].intercalate (Expr.tokensAll stmts) ++ [.rightBrace]
  | .list items _ => .leftBracket :: [.comma].intercalate (Expr.tokensAll items) ++ [.rightBracket]
  | .record fields _ =>
    .leftBrace :: [.comma].intercalate (Expr.fieldTokens fields) ++ [.rightBrace]
  | .field target name _ => target.tokens ++ [.dollar, .ident name]
  | .lambda params body _ =>
    .functionWord :: .leftParen :: [.comma].intercalate (params.map fun p => [nameToken p]) ++
      .rightParen :: body.tokens
  | .ifThen cond yes _ => .ifWord :: .leftParen :: cond.tokens ++ .rightParen :: yes.tokens
  | .ifElse cond yes no _ =>
    .ifWord :: .leftParen :: cond.tokens ++ .rightParen :: yes.tokens ++ .elseWord :: no.tokens
  | .assign target value scope _ => target.tokens ++ scope.token :: value.tokens
  | .inline label _ _ => [.ident label]

/-- The tokens of each of the expressions. -/
def Expr.tokensAll : List Expr → List (List Token)
  | [] => []
  | e :: rest => e.tokens :: Expr.tokensAll rest

/-- The tokens of each of the named expressions, its name and a colon before it. -/
def Expr.fieldTokens : List (String × Expr) → List (List Token)
  | [] => []
  | (name, e) :: rest => (.ident name :: .colon :: e.tokens) :: Expr.fieldTokens rest

end

attribute [simp] Expr.tokens Expr.tokensAll Expr.fieldTokens

theorem Expr.tokensAll_eq_map (es : List Expr) : Expr.tokensAll es = es.map Expr.tokens := by
  induction es with
  | nil => simp
  | cons e rest ih => simp [ih]

theorem Expr.fieldTokens_eq_map (fields : List (String × Expr)) :
    Expr.fieldTokens fields = fields.map fun f => .ident f.1 :: .colon :: f.2.tokens := by
  induction fields with
  | nil => simp
  | cons f rest ih => simp [ih]

/-! ### Printed forms -/

/-- No equals sign starts the text, which is not empty. -/
def Starts (text : String) : Prop := ∃ c tail, text.toList = c :: tail ∧ c ≠ '='

/-- What starts an expression does so whatever is written behind it. -/
theorem Starts.append {text : String} (h : Starts text) (more : String) :
    Starts (text ++ more) := by
  obtain ⟨c, tail, htext, hc⟩ := h
  exact ⟨c, tail ++ more.toList, by rw [String.toList_append, htext]; rfl, hc⟩

/-- The expression in print is cut into its tokens, and it may follow a sign. -/
structure Prints (e : Expr) : Prop where
  lexes : ∀ {rest : List Char} {ts : List Token},
    Delimited rest → Lexes rest ts → Lexes (e.print.toList ++ rest) (e.tokens ++ ts)
  starts : Starts e.print

/-- A name of a symbol or of a parameter. -/
def IsSymbol (name : String) : Prop := name = placeholder ∨ IsIdentifier name

variable {rest : List Char} {ts : List Token} {name : String} {s s' : Span} {a b e : Expr}
  {es : List Expr}

theorem delimited_cons {c : Char} (h : LexClass.continuesName c = false ∧ c ≠ ':')
    (rest : List Char) : Delimited (c :: rest) := by
  rintro d ⟨⟩
  exact h

/-- A symbol is lexed as its token where nothing continues it. -/
theorem lexes_symbol (hname : IsSymbol name) (hrest : Delimited rest) (h : Lexes rest ts) :
    Lexes (name.toList ++ rest) (nameToken name :: ts) := by
  rcases hname with rfl | hname
  · exact lexes_dot hrest h
  · have hne : name ≠ placeholder := by
      rintro rfl
      obtain ⟨⟨c, plain, tail, hlist, hc, -⟩, -⟩ := hname
      rw [← (List.cons.inj hlist).1] at hc
      cases hc
    rw [nameToken, if_neg hne]
    exact lexes_identifier hname hrest h

theorem isName_of_letters {c : Char} {letters : List Char} (hc : LexClass.startsName c = true)
    (hletters : letters.all LexClass.continuesName = true) :
    IsName (String.ofList (c :: letters)) :=
  ⟨c, letters, [], by rw [String.toList_ofList, List.append_nil], hc,
    List.all_eq_true.1 hletters, .inl rfl⟩

/-- A word of the language before a text that goes on with no name. -/
theorem lexes_keyword (word : String) {token : Token} (hword : IsName word)
    (htoken : LexClass.readWord word = token) (hrest : Delimited rest) (h : Lexes rest ts) :
    Lexes (word.toList ++ rest) (token :: ts) :=
  htoken ▸ lexes_word hword hrest h

/-- Texts with separators between them, and what each of them is cut into. -/
theorem lexes_intercalate {α : Type} {text : α → String} {tokens : α → List Token} {sep : String}
    {token : Token} (hdelim : ∀ rest, Delimited (sep.toList ++ rest))
    (hsep : ∀ {rest ts}, Lexes rest ts → Lexes (sep.toList ++ rest) (token :: ts)) {xs : List α}
    (hxs : ∀ x ∈ xs, ∀ {rest ts}, Delimited rest → Lexes rest ts →
      Lexes ((text x).toList ++ rest) (tokens x ++ ts))
    (hrest : Delimited rest) (h : Lexes rest ts) :
    Lexes ((sep.intercalate (xs.map text)).toList ++ rest)
      ([token].intercalate (xs.map tokens) ++ ts) := by
  rw [String.toList_intercalate]
  induction xs with
  | nil => exact h
  | cons x xs ih =>
    obtain ⟨hx, hothers⟩ := List.forall_mem_cons.1 hxs
    cases xs with
    | nil => simpa using hx hrest h
    | cons y ys =>
      have hafter := hx (hdelim _) (hsep (ih hothers))
      simpa [List.intercalate_cons_cons, List.append_assoc] using hafter

/-- Nothing before a comma is continued by it. -/
theorem delimited_comma (rest : List Char) : Delimited (", ".toList ++ rest) :=
  delimited_cons (c := ',') (by decide) _

theorem delimited_semicolon (rest : List Char) : Delimited ("; ".toList ++ rest) :=
  delimited_cons (c := ';') (by decide) _

theorem lexes_comma (h : Lexes rest ts) : Lexes (", ".toList ++ rest) (.comma :: ts) :=
  lexes_mark ',' (fun _ => rfl) (by simp) (lexes_blank h)

theorem lexes_semicolon (h : Lexes rest ts) : Lexes ("; ".toList ++ rest) (.semicolon :: ts) :=
  lexes_mark ';' (fun _ => rfl) (by simp) (lexes_blank h)

/-- A symbol is printed as its name. -/
theorem prints_sym (hname : IsSymbol name) : Prints (.sym name s) where
  lexes hrest h := by
    rw [Expr.print, Expr.tokens]
    exact lexes_symbol hname hrest h
  starts := by
    rw [Expr.print]
    rcases hname with rfl | ⟨⟨c, plain, tail, hlist, hc, -⟩, -⟩
    · exact ⟨'.', [], rfl, by decide⟩
    · refine ⟨c, _, hlist, ?_⟩
      rintro rfl
      cases hc

theorem prints_paren (he : Prints e) : Prints (.paren e s) where
  lexes {rest ts} hrest h := by
    rw [Expr.print, Expr.tokens]
    simp only [String.toList_append, List.append_assoc, List.cons_append, List.nil_append]
    refine lexes_leftParen ?_
    refine he.lexes (delimited_cons (by decide) _) ?_
    exact lexes_rightParen h
  starts := by
    rw [Expr.print]
    exact (Starts.append ⟨'(', [], rfl, by decide⟩ _).append _

/-- A list is printed between brackets, with commas. -/
theorem prints_list (hes : ∀ e ∈ es, Prints e) : Prints (.list es s) where
  lexes {rest ts} hrest h := by
    rw [Expr.print, Expr.tokens, Expr.printAll_eq_map, Expr.tokensAll_eq_map]
    simp only [String.toList_append, List.append_assoc, List.cons_append, List.nil_append]
    refine lexes_mark '[' (fun _ => rfl) (by simp) ?_
    refine lexes_intercalate delimited_comma lexes_comma
      (fun e he => (hes e he).lexes) (delimited_cons (by decide) _) ?_
    exact lexes_mark ']' (fun _ => rfl) (by simp) h
  starts := by
    rw [Expr.print]
    exact (Starts.append ⟨'[', [], rfl, by decide⟩ _).append _

/-- A block is printed between braces, with semicolons. -/
theorem prints_block (hes : ∀ e ∈ es, Prints e) : Prints (.block es s) where
  lexes {rest ts} hrest h := by
    have hclose : Lexes ('\x7d' :: rest) (.rightBrace :: ts) := lexes_rightBrace h
    cases es with
    | nil =>
      rw [Expr.print, Expr.tokens, Expr.tokensAll]
      exact lexes_leftBrace hclose
    | cons e others =>
      rw [Expr.print, Expr.tokens, Expr.tokensAll_eq_map, ← Expr.printAll, Expr.printAll_eq_map]
      simp only [String.toList_append, List.append_assoc, List.cons_append, List.nil_append]
      refine lexes_leftBrace (lexes_blank ?_)
      exact lexes_intercalate delimited_semicolon lexes_semicolon
        (fun e he => (hes e he).lexes) (delimited_cons (by decide) _) (lexes_blank hclose)
  starts := by
    cases es with
    | nil => rw [Expr.print]; exact ⟨'\x7b', _, rfl, by decide⟩
    | cons e others =>
      rw [Expr.print]
      exact (Starts.append ⟨'\x7b', _, rfl, by decide⟩ _).append _

/-- A record is printed as its names and values, with colons. -/
theorem prints_record {fields : List (String × Expr)}
    (hfields : ∀ f ∈ fields, IsName f.1 ∧ Prints f.2) : Prints (.record fields s) where
  lexes {rest ts} hrest h := by
    rw [Expr.print, Expr.tokens, Expr.printFields_eq_map, Expr.fieldTokens_eq_map]
    simp only [String.toList_append, List.append_assoc, List.cons_append, List.nil_append]
    refine lexes_leftBrace (lexes_blank ?_)
    refine lexes_intercalate delimited_comma lexes_comma
      (fun f hf rest ts hrest h => ?_) (delimited_cons (by decide) _)
      (lexes_blank (lexes_rightBrace h))
    simp only [String.toList_append, List.append_assoc]
    exact lexes_label (hfields f hf).1 ((hfields f hf).2.lexes hrest h)
  starts := by
    rw [Expr.print]
    exact (Starts.append ⟨'\x7b', _, rfl, by decide⟩ _).append _

/-- A field is printed as what it is taken of, a dollar and its name. -/
theorem prints_field (he : Prints e) (hname : IsIdentifier name) : Prints (.field e name s) where
  lexes {rest ts} hrest h := by
    rw [Expr.print, Expr.tokens]
    simp only [String.toList_append, List.append_assoc, List.cons_append, List.nil_append]
    refine he.lexes (delimited_cons (by decide) _) ?_
    exact lexes_mark '$' (fun _ => rfl) (by simp) (lexes_identifier hname hrest h)
  starts := by
    rw [Expr.print]
    exact (he.starts.append _).append _

/-- A function is printed with its parameters between parentheses and its body after them. -/
theorem prints_lambda {params : List String} (hparams : ∀ p ∈ params, IsSymbol p) (he : Prints e) :
    Prints (.lambda params e s) where
  lexes {rest ts} hrest h := by
    have hclose : Lexes (") ".toList ++ (e.print.toList ++ rest))
        (.rightParen :: (e.tokens ++ ts)) :=
      lexes_rightParen (lexes_blank (he.lexes hrest h))
    have hall : Lexes ((", ".intercalate (params.map fun p => p)).toList ++
          (") ".toList ++ (e.print.toList ++ rest)))
        ([.comma].intercalate (params.map fun p => [nameToken p]) ++
          .rightParen :: (e.tokens ++ ts)) :=
      lexes_intercalate delimited_comma lexes_comma
        (fun p hp _ _ => lexes_symbol (hparams p hp)) (delimited_cons (by decide) _) hclose
    have hopen := lexes_leftParen hall
    rw [List.map_id'] at hopen
    rw [Expr.print, Expr.tokens]
    simp only [String.toList_append, List.append_assoc, List.cons_append]
    exact lexes_keyword "function" (isName_of_letters (by decide) (by decide)) (by decide)
      (delimited_cons (by decide) _) hopen
  starts := by
    rw [Expr.print]
    exact ((Starts.append ⟨'f', _, rfl, by decide⟩ _).append _).append _

theorem prints_ifThen (ha : Prints a) (hb : Prints b) : Prints (.ifThen a b s) where
  lexes {rest ts} hrest h := by
    rw [Expr.print, Expr.tokens]
    simp only [String.toList_append, List.append_assoc, List.cons_append]
    refine lexes_keyword "if" (isName_of_letters (by decide) (by decide)) (by decide)
      (delimited_cons (by decide) _) (lexes_blank (lexes_leftParen ?_))
    refine ha.lexes (delimited_cons (by decide) _) ?_
    exact lexes_rightParen (lexes_blank (hb.lexes hrest h))
  starts := by
    rw [Expr.print]
    exact ((Starts.append ⟨'i', _, rfl, by decide⟩ _).append _).append _

/-- A conditional is printed with its keywords, between which nothing can be continued. -/
theorem prints_ifElse {c : Expr} (ha : Prints a) (hb : Prints b) (hc : Prints c) :
    Prints (.ifElse a b c s) where
  lexes {rest ts} hrest h := by
    have helse : Lexes (" else ".toList ++ (c.print.toList ++ rest))
        (.elseWord :: (c.tokens ++ ts)) :=
      lexes_blank (lexes_keyword "else" (isName_of_letters (by decide) (by decide)) (by decide)
        (delimited_cons (by decide) _) (lexes_blank (hc.lexes hrest h)))
    rw [Expr.print, Expr.tokens]
    simp only [String.toList_append, List.append_assoc, List.cons_append]
    refine lexes_keyword "if" (isName_of_letters (by decide) (by decide)) (by decide)
      (delimited_cons (by decide) _) (lexes_blank (lexes_leftParen ?_))
    refine ha.lexes (delimited_cons (by decide) _) ?_
    refine lexes_rightParen (lexes_blank (hb.lexes ?_ helse))
    exact delimited_cons (c := ' ') (by decide) _
  starts := by
    rw [Expr.print]
    exact ((((Starts.append ⟨'i', _, rfl, by decide⟩ _).append _).append _).append _).append _

/-! ### Literals -/

/-- A whole number starts with a digit. -/
theorem starts_int {n : Int64} (hn : 0 ≤ n.toInt) : Starts (toString n.toInt) := by
  obtain ⟨k, hk⟩ := Int.eq_ofNat_of_zero_le hn
  have hlist : (toString n.toInt).toList = Nat.toDigits 10 k := by
    rw [hk]
    exact Nat.toList_repr
  cases hdigits : Nat.toDigits 10 k with
  | nil => exact absurd hdigits Nat.toDigits_ne_nil
  | cons c digits =>
    refine ⟨c, digits, hlist.trans hdigits, ?_⟩
    rintro rfl
    have hdigit := Nat.isDigit_of_mem_toDigits (by decide) (Nat.le_refl 10)
      (hdigits ▸ List.mem_cons_self)
    cases hdigit

/-- Whole numbers in print have no sign, so they are those that the lexer gives. -/
theorem prints_lit {literal : Literal} (hfloat : ∀ x, literal ≠ .float x)
    (hint : ∀ n, literal = .int n → 0 ≤ n.toInt) : Prints (.lit literal s) where
  lexes {rest ts} hrest h := by
    rw [Expr.print, Expr.tokens]
    -- the words are keywords, a number is not negative, and a string is quoted
    cases literal with
    | null => exact lexes_keyword _ (isName_of_letters (by decide) (by decide)) (by decide) hrest h
    | bool b =>
      cases b
      · exact lexes_keyword _ (isName_of_letters (by decide) (by decide)) (by decide) hrest h
      · exact lexes_keyword _ (isName_of_letters (by decide) (by decide)) (by decide) hrest h
    | int n => exact lexes_int (hint n rfl) hrest h
    | float x => exact absurd rfl (hfloat x)
    | str x => exact lexes_str x h
  starts := by
    rw [Expr.print]
    cases literal with
    | null => exact ⟨'n', _, rfl, by decide⟩
    | bool b =>
      cases b
      · exact ⟨'f', _, rfl, by decide⟩
      · exact ⟨'t', _, rfl, by decide⟩
    | int n => exact starts_int (hint n rfl)
    | float x => exact absurd rfl (hfloat x)
    | str x => exact ⟨'"', _, String.toList_ofList, by decide⟩

/-! ### Operators -/

/-- What is written between percent signs is an operator. -/
theorem isOperator_of_isSpecial (h : IsSpecial name) : isOperator name = true := by
  obtain ⟨inner, hlist, -⟩ := h
  have hlast : ('%' :: (inner ++ ['%'])).getLast? = some '%' := by
    rw [← List.cons_append]
    exact List.getLast?_concat
  simp [isOperator, hlist, hlast]

/-- Its token carries its name. -/
theorem operatorToken_of_isSpecial (h : IsSpecial name) : operatorToken name = .special name := by
  have hfind : plainOperators.find? (fun t => t.spelling == name) = none := by
    refine List.find?_eq_none.2 fun t ht heq => ?_
    obtain ⟨inner, hlist, -⟩ := h
    have hhead : ∀ t ∈ plainOperators, t.spelling.toList.head? ≠ some '%' := by decide
    refine hhead t ht ?_
    rw [eq_of_beq heq, hlist]
    rfl
  rw [operatorToken, hfind, Option.getD_none]

section

variable {t : Token} {op : InfixOp} (ht : InfixOp.ofToken? t = some op)
  (hspecial : ∀ name, t = .special name → IsSpecial name)

include ht hspecial

/-- An infix operator is printed between its operands, with blanks around it. -/
theorem print_apply : (op.apply s a b).print = a.print ++ " " ++ t.spelling ++ " " ++ b.print := by
  cases t
  case special name =>
    cases ht
    have hop := isOperator_of_isSpecial (hspecial name rfl)
    show (Expr.call (.sym name s) [a, b] (a.span.join b.span)).print = _
    rw [Expr.print, Expr.printAll, Expr.printAll, Expr.printAll, printCall]
    simp only [hop, if_true]
    rfl
  all_goals cases ht
  all_goals rfl

theorem tokens_apply : (op.apply s a b).tokens = a.tokens ++ t :: b.tokens := by
  cases t
  case special name =>
    cases ht
    have hop := isOperator_of_isSpecial (hspecial name rfl)
    show (Expr.call (.sym name s) [a, b] (a.span.join b.span)).tokens = _
    rw [Expr.tokens, Expr.tokensAll, Expr.tokensAll, Expr.tokensAll, callTokens]
    simp only [hop, if_true, operatorToken_of_isSpecial (hspecial name rfl)]
  all_goals cases ht
  all_goals rfl

/-- The blanks keep the operator apart from its operands. -/
theorem prints_apply (ha : Prints a) (hb : Prints b) : Prints (op.apply s a b) where
  lexes {rest ts} hrest h := by
    rw [print_apply ht hspecial, tokens_apply ht hspecial]
    simp only [String.toList_append, List.append_assoc, List.cons_append]
    refine ha.lexes (delimited_cons (c := ' ') (by decide) _) (lexes_blank ?_)
    exact lexes_infix ht hspecial (hb.lexes hrest h)
  starts := by
    rw [print_apply ht hspecial]
    exact (((ha.starts.append _).append _).append _).append _

end

section

variable {t : Token} {sign : String} (ht : Start.ofToken? t = some (.sign sign))

include ht

theorem tokens_sign : (Expr.call (.sym sign s') [e] s).tokens = t :: e.tokens := by
  cases t
  all_goals cases ht
  all_goals rfl

theorem print_sign : (Expr.call (.sym sign s') [e] s).print = t.spelling ++ e.print := by
  cases t
  all_goals cases ht
  all_goals rfl

/-- A sign is printed right before its operand. -/
theorem prints_sign (he : Prints e) : Prints (.call (.sym sign s') [e] s) where
  lexes {rest ts} hrest h := by
    have hafter := he.lexes hrest h
    rw [tokens_sign ht, print_sign ht, String.toList_append, List.append_assoc]
    cases t
    case minus => exact lexes_mark '-' (fun _ => rfl) (by simp) hafter
    case bang =>
      -- the only mark that an equals sign could join
      obtain ⟨c, tail, hlist, hc⟩ := he.starts
      refine lexes_bang (fun h => hc ?_) hafter
      rw [hlist] at h
      exact Option.some.inj h
    all_goals cases ht
  starts := by
    rw [print_sign ht]
    cases t
    case minus => exact Starts.append ⟨'-', [], rfl, by decide⟩ _
    case bang => exact Starts.append ⟨'!', [], rfl, by decide⟩ _
    all_goals cases ht

end

/-! ### Calls -/

/-- Calls of the expression are written with their arguments in parentheses, and the expression has
a printed form of its own. -/
def IsPlainCallee : Expr → Prop
  | .sym name _ => isOperator name = false ∧ sign? name = none
  | .inline .. => False
  | _ => True

/-- A call of anything but an operator is printed as a call, with parentheses around what is no bare
callee. -/
theorem printCall_plain {f : Expr} (hf : IsPlainCallee f) (callee : String) (args : List String) :
    printCall f callee args =
      (if f.isBareCallee then callee else "(" ++ callee ++ ")") ++ "(" ++ ", ".intercalate args ++
        ")" := by
  cases f
  case inline label ref s => exact hf.elim
  case sym name s =>
    obtain ⟨hop, hsign⟩ := hf
    rcases args with _ | ⟨x, _ | ⟨y, _ | ⟨z, more⟩⟩⟩
    all_goals simp only [printCall, hop, hsign, Expr.isBareCallee, if_true, Bool.false_eq_true,
      if_false]
  all_goals rfl

/-- Its tokens follow the same rule. -/
theorem callTokens_plain {f : Expr} (hf : IsPlainCallee f) (callee : List Token)
    (args : List (List Token)) : callTokens f callee args = plainCallTokens f callee args := by
  cases f
  case sym name s =>
    obtain ⟨hop, hsign⟩ := hf
    have htoken : signToken? name = none := by
      unfold sign? at hsign
      unfold signToken?
      split at hsign
      · cases hsign
      · split at hsign
        · cases hsign
        · simp only [*, if_false]
    rcases args with _ | ⟨x, _ | ⟨y, _ | ⟨z, more⟩⟩⟩
    all_goals simp only [callTokens, hop, htoken, Bool.false_eq_true, if_false]
  all_goals rfl

/-- A call is printed as its callee and its arguments, with commas. -/
theorem prints_call {f : Expr} (hplain : IsPlainCallee f) (hf : Prints f)
    (hes : ∀ e ∈ es, Prints e) : Prints (.call f es s) where
  lexes {rest ts} hrest h := by
    -- the arguments are the same whether the callee stands in parentheses or not
    have hargs : Lexes ("(".toList ++ ((", ".intercalate (es.map Expr.print)).toList ++
          (")".toList ++ rest)))
        (.leftParen :: ([.comma].intercalate (es.map Expr.tokens) ++ .rightParen :: ts)) := by
      refine lexes_leftParen ?_
      refine lexes_intercalate delimited_comma lexes_comma (fun e he => (hes e he).lexes)
        (delimited_cons (c := ')') (by decide) _) ?_
      exact lexes_rightParen h
    rw [Expr.print, Expr.tokens, Expr.printAll_eq_map, Expr.tokensAll_eq_map,
      printCall_plain hplain, callTokens_plain hplain, plainCallTokens]
    simp only [String.toList_append, List.append_assoc, List.cons_append, List.nil_append]
    split
    · exact hf.lexes (delimited_cons (c := '(') (by decide) _) hargs
    · simp only [String.toList_append, List.append_assoc, List.cons_append, List.nil_append]
      refine lexes_leftParen ?_
      refine hf.lexes (delimited_cons (c := ')') (by decide) _) ?_
      exact lexes_rightParen hargs
  starts := by
    rw [Expr.print, printCall_plain hplain]
    refine ((Starts.append ?_ _).append _).append _
    split
    · exact hf.starts
    · exact (Starts.append ⟨'(', [], rfl, by decide⟩ _).append _

end PipeLang
