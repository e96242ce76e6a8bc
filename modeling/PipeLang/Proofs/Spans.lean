import PipeLang.Proofs.Constructs
import PipeLang.Proofs.Printing
import PipeLang.Proofs.Targets
import PipeLang.Proofs.Tiling

/-!
# The spans of a program

Every node of a program has the span of its construct: from the start of its first lexeme to the end
of its last one, line breaks before and after it left out.  So spans lie on character boundaries of
the source, the spans of the parts of a node lie within its own, and they follow each other in
the order in which the parts are written, as do those of statements
(`spans_are_exact_and_nested`).

By `reads_of_program` a program is read from its lexemes, so that the proof does not look at the
parser.  It has two parts:

1. the lexemes of a source stand in order, and a span joined from those of the first and the last
   part of a construct covers the whole (`covers_join`), so spans cover what they are read from
   (`Reads.covers`);
2. the parts of a construct are segments of its lexemes in written order (`Construct.segmented`,
   `Construct.map_snd`), so their spans are in order and inside (`AreLexemes.hasExactSpan`).
-/

namespace PipeLang

/-! ### Spans of lexemes -/

/-- The lexemes stand one after the other, and none is empty. -/
def InOrder (ts : List Lexeme) : Prop :=
  (∀ t ∈ ts, 0 < t.span.len) ∧ ts.Pairwise fun t u => t.span.stop ≤ u.span.offset

/-- One span ends before another one starts. -/
def Span.Before (a b : Span) : Prop := a.offset < b.offset ∧ a.stop ≤ b.offset

/-- A span lies in another one. -/
def Span.Within (a b : Span) : Prop := b.offset ≤ a.offset ∧ a.stop ≤ b.stop

/-- The span reaches from the start of the first lexeme to the end of the last one, and these are
no line breaks. -/
def Span.Covers (s : Span) (ts : List Lexeme) : Prop :=
  ∃ first last, ts.head? = some first ∧ ts.getLast? = some last ∧
    s.offset = first.span.offset ∧ s.stop = last.span.stop ∧
    first.token ≠ .newline ∧ last.token ≠ .newline

variable {ts us : List Lexeme} {t : Lexeme} {a b s : Span} {e : Expr} {parts : List Segment}

theorem InOrder.sublist (h : InOrder ts) (hsub : us.Sublist ts) : InOrder us :=
  ⟨fun t ht => h.1 t (hsub.subset ht), h.2.sublist hsub⟩

theorem covers_singleton (ht : t.token ≠ .newline) : t.span.Covers [t] :=
  ⟨t, t, rfl, rfl, rfl, rfl, ht, ht⟩

/-- The span joined from those of the first and the last part covers all that is between them. -/
theorem covers_join (mid : List Lexeme) (ha : a.Covers ts) (hb : b.Covers us)
    (h : InOrder (ts ++ mid ++ us)) : (a.join b).Covers (ts ++ mid ++ us) := by
  obtain ⟨first, last, hfirst, hlast, haoffset, hastop, hstart, -⟩ := ha
  obtain ⟨first', last', hfirst', hlast', hboffset, hbstop, -, hend⟩ := hb
  have horder : ∀ t ∈ ts, ∀ u ∈ us, t.span.stop ≤ u.span.offset := by
    intro t ht u hu
    exact (List.pairwise_append.1 h.2).2.2 t (List.mem_append_left _ ht) u hu
  have hstarts := horder first (List.mem_of_mem_head? hfirst) first' (List.mem_of_mem_head? hfirst')
  have hends := horder last (List.mem_of_getLast? hlast) last' (List.mem_of_getLast? hlast')
  simp only [Span.stop] at hstarts hends hastop hbstop
  refine ⟨first, last', ?_, ?_, ?_, ?_, hstart, hend⟩
  · rw [List.append_assoc, List.head?_append, hfirst]
    rfl
  · rw [List.getLast?_append, hlast']
    rfl
  · rw [Span.offset_join]
    omega
  · rw [Span.stop_join]
    simp only [Span.stop]
    omega

/-- The first lexeme starts first. -/
theorem InOrder.offset_le (h : InOrder ts) (hhead : ts.head? = some t) :
    ∀ u ∈ ts, t.span.offset ≤ u.span.offset := by
  obtain ⟨tail, rfl⟩ := List.head?_eq_some_iff.1 hhead
  intro u hu
  rcases List.mem_cons.1 hu with rfl | hu
  · exact Nat.le_refl _
  · have hafter := (List.pairwise_cons.1 h.2).1 u hu
    simp only [Span.stop] at hafter
    omega

/-- The last lexeme ends last. -/
theorem InOrder.le_stop (h : InOrder ts) (hlast : ts.getLast? = some t) :
    ∀ u ∈ ts, u.span.stop ≤ t.span.stop := by
  obtain ⟨init, rfl⟩ := List.getLast?_eq_some_iff.1 hlast
  intro u hu
  rcases List.mem_append.1 hu with hu | hu
  · have hafter := (List.pairwise_append.1 h.2).2.2 u hu t List.mem_cons_self
    simp only [Span.stop] at hafter ⊢
    omega
  · obtain rfl := List.mem_singleton.1 hu
    exact Nat.le_refl _

/-- The span of a part of the lexemes lies within that of them all. -/
theorem Span.Covers.within (ha : a.Covers us) (hb : b.Covers ts) (h : InOrder ts)
    (hsub : us ⊆ ts) : a.Within b := by
  obtain ⟨first, last, hfirst, hlast, hoffset, hstop, -, -⟩ := ha
  obtain ⟨first', last', hfirst', hlast', hoffset', hstop', -, -⟩ := hb
  constructor
  · rw [hoffset, hoffset']
    exact h.offset_le hfirst' first (hsub (List.mem_of_mem_head? hfirst))
  · rw [hstop, hstop']
    exact h.le_stop hlast' last (hsub (List.mem_of_getLast? hlast))

/-- Parts of the lexemes one after the other have spans one after the other. -/
theorem Span.Covers.before (ha : a.Covers ts) (hb : b.Covers us) (h : InOrder (ts ++ us)) :
    a.Before b := by
  obtain ⟨first, last, hfirst, hlast, hoffset, hstop, -, -⟩ := ha
  obtain ⟨first', last', hfirst', -, hoffset', -, -, -⟩ := hb
  have horder := (List.pairwise_append.1 h.2).2.2
  have hfirst := List.mem_of_mem_head? hfirst
  have hfirst' := List.mem_of_mem_head? hfirst'
  have hlength := h.1 first (List.mem_append_left _ hfirst)
  have hstart := horder first hfirst first' hfirst'
  have hend := horder last (List.mem_of_getLast? hlast) first' hfirst'
  unfold Span.Before
  simp only [Span.stop] at hstart hend hstop ⊢
  omega

/-! ### Segments -/

/-- The lexemes of a segment stand among them all. -/
theorem Between.exists_split {other : Token → Prop} (h : Between other ts parts) :
    ∀ part ∈ parts, ∃ before after, ts = before ++ part.1 ++ after := by
  induction h with
  | nil => simp
  | @cons gap rest segment parts _ _ ih =>
    intro part hpart
    rcases List.mem_cons.1 hpart with rfl | hpart
    · exact ⟨gap, rest, rfl⟩
    · obtain ⟨before, after, rfl⟩ := ih part hpart
      exact ⟨gap ++ segment.1 ++ before, after, by simp only [List.append_assoc]⟩

theorem Between.sublist {other : Token → Prop} (h : Between other ts parts) :
    ∀ part ∈ parts, part.1.Sublist ts := by
  intro part hpart
  obtain ⟨before, after, rfl⟩ := h.exists_split part hpart
  exact (List.sublist_append_right _ _).trans (List.sublist_append_left _ _)

/-- The spans of segments one after the other are in order. -/
theorem Between.pairwise {other : Token → Prop} (h : Between other ts parts) (horder : InOrder ts)
    (hparts : ∀ part ∈ parts, part.2.span.Covers part.1) :
    (parts.map Prod.snd).Pairwise fun d e => d.span.Before e.span := by
  induction h with
  | nil => exact .nil
  | @cons gap rest segment parts _ hrest ih =>
    obtain ⟨hsegment, hparts⟩ := List.forall_mem_cons.1 hparts
    refine List.pairwise_cons.2 ⟨?_, ih (horder.sublist (List.sublist_append_right _ _)) hparts⟩
    intro e he
    obtain ⟨part, hpart, rfl⟩ := List.mem_map.1 he
    have hsub := (List.sublist_append_right gap segment.1).append (hrest.sublist part hpart)
    exact hsegment.before (hparts part hpart) (horder.sublist hsub)

/-- The lexemes are the segments in their order, with any others around them. -/
abbrev Segmented (ts : List Lexeme) (parts : List Segment) : Prop :=
  Between (fun _ => True) ts parts

theorem Between.segmented {other : Token → Prop} (h : Between other ts parts) :
    Segmented ts parts := by
  induction h with
  | nil => exact .nil (by simp)
  | cons segment _ _ ih => exact .cons segment (by simp) ih

theorem segmented_nil (ts : List Lexeme) : Segmented ts [] := .nil (by simp)

theorem segmented_cons (gap us : List Lexeme) (e : Expr) (h : Segmented ts parts) :
    Segmented (gap ++ us ++ ts) ((us, e) :: parts) :=
  .cons (us, e) (by simp) h

theorem segmented_enclosed {inside : List Lexeme} (opening closing : Lexeme)
    (h : Segmented inside parts) : Segmented (opening :: (inside ++ [closing])) parts :=
  Parser.between_append [opening] (by simp)
    (Parser.between_append_right [closing] (by simp) h)

/-- The parts of a construct are segments of its lexemes. -/
theorem Construct.segmented (h : Construct ts e parts) : Segmented ts parts := by
  cases h with
  | literal | symbol | signSymbol | operatorSymbol => exact segmented_nil _
  | @sign t name gap ts e =>
    have h := segmented_cons [] [t] (.sym name t.span) (segmented_cons gap ts e (segmented_nil []))
    simpa using h
  -- the symbol of an operator is a part of its own, between the two sides
  | @operator t op name ls gap gap' rs lhs rhs =>
    have h := segmented_cons [] ls lhs (segmented_cons gap [t] (.sym name t.span)
      (segmented_cons gap' rs rhs (segmented_nil [])))
    simpa using h
  | @assign t op scope ls gap gap' rs lhs rhs =>
    have h := segmented_cons [] ls lhs (segmented_cons (gap ++ t :: gap') rs rhs (segmented_nil []))
    simpa using h
  | @call opening closing fs gap inside func args _ _ _ _ hinside =>
    have hargs := Parser.between_append gap (by simp)
      (segmented_enclosed opening closing hinside.segmented)
    have h := segmented_cons [] fs func hargs
    simpa using h
  | @field dollar key name us gap gap' e =>
    have h := segmented_cons [] us e (segmented_nil (gap ++ dollar :: (gap' ++ [key])))
    simpa using h
  | paren _ _ hinside | list _ _ hinside | record _ _ hinside | block _ _ hinside =>
    exact segmented_enclosed _ _ hinside.segmented
  | @lambda word params gap us body =>
    have h := segmented_cons (word :: gap) us body (segmented_nil [])
    simpa using h
  | @ifThen word gap gap' cs ys cond yes =>
    have h := segmented_cons (word :: gap) cs cond (segmented_cons gap' ys yes (segmented_nil []))
    simpa using h
  | @ifElse word gap gap' gap'' cs ys ns cond yes no =>
    have h := segmented_cons (word :: gap) cs cond (segmented_cons gap' ys yes
      (segmented_cons gap'' ns no (segmented_nil [])))
    simpa using h

/-! ### Spans of constructs -/

/-- No expression starts with a newline. -/
theorem ne_newline_of_start {start : Start} (h : Start.ofToken? t.token = some start) :
    t.token ≠ .newline := by
  intro ht
  rw [ht] at h
  cases h

theorem ne_newline_of_operator {op : InfixOp} (h : InfixOp.ofToken? t.token = some op) :
    t.token ≠ .newline := by
  intro ht
  rw [ht] at h
  cases h

/-- A construct between two lexemes spans both. -/
theorem covers_enclosed {opening closing : Lexeme} {start : Start} {close : Token}
    {inside : List Lexeme} (hopening : Start.ofToken? opening.token = some start)
    (hclosing : closing.token = close) (hclose : close ≠ .newline)
    (horder : InOrder (opening :: (inside ++ [closing]))) :
    (opening.span.join closing.span).Covers (opening :: (inside ++ [closing])) :=
  covers_join inside (covers_singleton (ne_newline_of_start hopening))
    (covers_singleton (hclosing ▸ hclose)) horder

/-- A construct that starts with a lexeme and ends with a part spans both. -/
theorem covers_led {start : Start} (mid : List Lexeme) (ht : Start.ofToken? t.token = some start)
    (hb : b.Covers us) (horder : InOrder (t :: (mid ++ us))) :
    (t.span.join b).Covers (t :: (mid ++ us)) :=
  covers_join mid (covers_singleton (ne_newline_of_start ht)) hb horder

/-- A construct spans from its first lexeme to its last one if its parts do. -/
theorem Construct.covers (h : Construct ts e parts) (horder : InOrder ts)
    (hparts : ∀ part ∈ parts, part.2.span.Covers part.1) : e.span.Covers ts := by
  cases h with
  | literal ht | symbol ht | signSymbol ht => exact covers_singleton (ne_newline_of_start ht)
  | operatorSymbol ht => exact covers_singleton (ne_newline_of_operator ht)
  -- constructs that start with a token of their own and end with a part
  | @sign t name gap us e ht => exact covers_led gap ht (hparts (us, e) (by simp)) horder
  | @lambda word params gap us body hword =>
    exact covers_led gap hword (hparts (us, body) (by simp)) horder
  | @ifThen word gap gap' cs ys cond yes hword =>
    have h := covers_led (gap ++ cs ++ gap') hword (hparts (ys, yes) (by simp))
      (by simpa using horder)
    show (word.span.join yes.span).Covers _
    simpa using h
  | @ifElse word gap gap' gap'' cs ys ns cond yes no hword =>
    have h := covers_led (gap ++ cs ++ (gap' ++ ys ++ gap'')) hword
      (hparts (ns, no) (by simp)) (by simpa using horder)
    show (word.span.join no.span).Covers _
    simpa using h
  | paren hopening hclosing | list hopening hclosing | record hopening hclosing
  | block hopening hclosing => exact covers_enclosed hopening hclosing (by decide) horder
  -- constructs between two parts
  | @operator t op name ls gap gap' rs lhs rhs =>
    have h := covers_join (gap ++ t :: gap') (hparts (ls, lhs) (by simp))
      (hparts (rs, rhs) (by simp)) (by simpa using horder)
    show (lhs.span.join rhs.span).Covers _
    simpa using h
  | @assign t op scope ls gap gap' rs lhs rhs =>
    have h := covers_join (gap ++ t :: gap') (hparts (ls, lhs) (by simp))
      (hparts (rs, rhs) (by simp)) (by simpa using horder)
    show (lhs.span.join rhs.span).Covers _
    simpa using h
  -- constructs that start with a part and end with a token of their own
  | @call opening closing fs gap inside func args _ _ _ hclosing =>
    have hend : closing.token ≠ .newline := by simp [hclosing]
    have h := covers_join (gap ++ opening :: inside) (hparts (fs, func) (by simp))
      (covers_singleton hend) (by simpa using horder)
    show (func.span.join closing.span).Covers _
    simpa using h
  | @field dollar key name us gap gap' e _ _ _ hkey =>
    have hend : key.token ≠ .newline := by simp [hkey]
    have h := covers_join (gap ++ dollar :: gap') (hparts (us, e) (by simp))
      (covers_singleton hend) (by simpa using horder)
    show (e.span.join key.span).Covers _
    simpa using h

/-- The span of an expression that is read from lexemes covers them. -/
theorem Reads.covers (h : Reads ts e) (horder : InOrder ts) : e.span.Covers ts := by
  induction h with
  | @node ts e parts hconstruct _ ih =>
    refine hconstruct.covers horder fun part hpart => ih part hpart ?_
    exact horder.sublist (hconstruct.segmented.sublist part hpart)

/-- The span of each segment covers its tokens. -/
theorem Between.covers {other : Token → Prop} (h : Between other ts parts) (horder : InOrder ts)
    (hparts : ∀ part ∈ parts, Reads part.1 part.2) :
    ∀ part ∈ parts, part.2.span.Covers part.1 :=
  fun part hpart => (hparts part hpart).covers (horder.sublist (h.sublist part hpart))

/-! ### Parts in written order -/

/-- The expressions that stand directly in an expression, in the order in which they are written:
the symbol of an operator stands between its operands. -/
def Expr.written : Expr → List Expr
  | .call (.sym op s) [lhs, rhs] _ =>
    if isOperator op then [lhs, .sym op s, rhs] else [.sym op s, lhs, rhs]
  | e => e.children

theorem Expr.mem_written {d e : Expr} : d ∈ e.written ↔ d ∈ e.children := by
  unfold Expr.written
  split
  · split
    · simp only [children, parts, List.mem_cons]
      exact or_left_comm
    · rfl
  · rfl

/-- Names and operators of the lexemes are spelled as such. -/
def Proper (ts : List Lexeme) : Prop :=
  ∀ t ∈ ts, ∃ next, t.token.Spelled next

/-- Names contain none of the characters of an operator. -/
theorem isOperator_of_isName {name : String} (h : IsName name) : isOperator name = false := by
  obtain ⟨c, plain, tail, hlist, hc, -⟩ := h
  have hoperators : ["+", "-", "*", "/", "==", "!=", "<", "<=", ">", ">=", "&&", "||"].all
      (fun op => op.toList.head?.all fun d => !LexClass.startsName d) = true := by decide
  rw [← Bool.not_eq_true, isOperator, Bool.or_eq_true]
  rintro (h | h)
  · rw [hlist] at h
    have hpercent : c = '%' := by simp_all
    rw [hpercent] at hc
    cases hc
  · have hfirst := List.all_eq_true.1 hoperators name (List.contains_iff_mem.1 h)
    rw [hlist, List.head?_cons, Option.all_some, hc] at hfirst
    cases hfirst

/-- The name of a symbol is an identifier or the placeholder. -/
theorem isOperator_of_symbol {name : String} {next : Option Token}
    (hspelled : t.token.Spelled next) (h : Start.ofToken? t.token = some (.symbol name)) :
    isOperator name = false := by
  cases htoken : t.token with
  | ident other =>
    rw [htoken] at h hspelled
    cases h
    exact isOperator_of_isName hspelled.1
  | dot =>
    rw [htoken] at h
    cases h
    decide
  | _ =>
    rw [htoken] at h
    cases h

/-- The name of an infix operator is one between percent signs, or written in marks. -/
theorem isOperator_of_operator {op : InfixOp} {name : String} {next : Option Token}
    (hspelled : t.token.Spelled next) (h : InfixOp.ofToken? t.token = some op)
    (hname : op.form = .call name) : isOperator name = true := by
  cases htoken : t.token with
  | special other =>
    rw [htoken] at h hspelled
    cases h
    cases hname
    exact isOperator_of_isSpecial hspelled
  -- leftArrow => | arrows are no calls, and have no name
  | superArrow | leftArrow =>
    rw [htoken] at h
    cases h
    cases hname
  | orOr | andAnd | eqEq | bangEq | less | lessEq | greater | greaterEq | plus | minus | star
  | slash =>
    rw [htoken] at h
    cases h
    cases hname
    decide
  | _ =>
    rw [htoken] at h
    cases h

/-- The parts of a construct are those of its expression in written order. -/
theorem Construct.map_snd (h : Construct ts e parts) (hproper : Proper ts) :
    parts.map Prod.snd = e.written := by
  cases h with
  | @operator t op name ls gap gap' rs lhs rhs ht hname =>
    obtain ⟨next, hspelled⟩ := hproper t (by simp)
    rw [Expr.written, if_pos (isOperator_of_operator hspelled ht hname)]
    rfl
  | @call opening closing fs gap inside func args hnamed =>
    unfold Expr.written
    split
    -- a symbol that is called is no operator
    · next op s lhs rhs _ heq =>
      injection heq with hfunc hargs
      obtain ⟨t, rfl, ht⟩ := hnamed op s hfunc
      obtain ⟨next, hspelled⟩ := hproper t (by simp)
      rw [if_neg (by simp [isOperator_of_symbol hspelled ht]), List.map_cons, hfunc, hargs]
    · rfl
  | record _ _ _ hvalues => exact hvalues.symm
  | _ => rfl

/-! ### Every node -/

/-- The expression stands somewhere in this one. -/
inductive Expr.Occurs (d : Expr) : Expr → Prop
  | self : Occurs d d
  | child {e child : Expr} (hchild : child ∈ e.children) (h : Occurs d child) : Occurs d e

theorem Proper.subset (h : Proper ts) (hsub : us ⊆ ts) : Proper us := fun t ht => h t (hsub ht)

/-- What stands in an expression is read from a part of its lexemes. -/
theorem Reads.exists_split {d : Expr} (hoccurs : Expr.Occurs d e) (h : Reads ts e)
    (hproper : Proper ts) : ∃ before us after, ts = before ++ us ++ after ∧ Reads us d := by
  induction hoccurs generalizing ts with
  | self => exact ⟨[], ts, [], by simp, h⟩
  | @child e child hchild _ ih =>
    obtain ⟨hconstruct, hparts⟩ := h
    rw [← Expr.mem_written, ← hconstruct.map_snd hproper] at hchild
    obtain ⟨part, hpart, rfl⟩ := List.mem_map.1 hchild
    obtain ⟨before, after, rfl⟩ := hconstruct.segmented.exists_split part hpart
    obtain ⟨before', us, after', hus, hread⟩ := ih (hparts part hpart)
      (hproper.subset fun t ht => by simp [ht])
    refine ⟨before ++ before', us, after' ++ after, ?_, hread⟩
    rw [hus]
    simp only [List.append_assoc]

/-! ### Programs -/

/-- A character of the source starts at this byte, or the source ends there. -/
def IsBoundary (source : String) (offset : Nat) : Prop :=
  ∃ before after, source = before ++ after ∧ before.utf8ByteSize = offset

/-- The span of an expression in a source with these lexemes is that of the construct. -/
structure HasExactSpan (source : String) (lexemes : List Lexeme) (d : Expr) : Prop where
  /-- The expression is read from some of the lexemes, and its span covers just these. -/
  covers : ∃ before ts after, lexemes = before ++ ts ++ after ∧ Reads ts d ∧ d.span.Covers ts
  /-- The span lies in the source, on character boundaries. -/
  inside : IsBoundary source d.span.offset ∧ IsBoundary source d.span.stop
  /-- The spans of the parts lie in it. -/
  contains : ∀ child ∈ d.children, child.span.Within d.span
  /-- The spans of the parts are in written order. -/
  ordered : d.written.Pairwise fun a b => a.span.Before b.span

theorem Span.Cuts.isBoundary {source text : String} (h : s.Cuts source text) :
    IsBoundary source s.offset ∧ IsBoundary source s.stop := by
  obtain ⟨before, after, hsource, hoffset, hlen⟩ := h
  refine ⟨⟨before, text ++ after, ?_, hoffset⟩, before ++ text, after, hsource, ?_⟩
  · rw [hsource, String.append_assoc]
  · rw [String.utf8ByteSize_append, Span.stop]
    omega

theorem Span.Covers.isBoundary {source : String} (h : s.Covers ts)
    (hts : ∀ t ∈ ts, t.span.Cuts source t.text) :
    IsBoundary source s.offset ∧ IsBoundary source s.stop := by
  obtain ⟨first, last, hfirst, hlast, hoffset, hstop, -, -⟩ := h
  rw [hoffset, hstop]
  exact ⟨(hts first (List.mem_of_mem_head? hfirst)).isBoundary.1,
    (hts last (List.mem_of_getLast? hlast)).isBoundary.2⟩

/-- What the lexemes of a source have in common. -/
structure AreLexemes (source : String) (ts : List Lexeme) : Prop where
  inOrder : InOrder ts
  proper : Proper ts
  cuts : ∀ t ∈ ts, t.span.Cuts source t.text

theorem Proper.of_lexed (h : Lexed ts) : Proper ts := by
  induction h with
  | nil => simp [Proper]
  | cons hspelled _ ih => exact List.forall_mem_cons.2 ⟨⟨_, hspelled⟩, ih⟩

theorem areLexemes_of_lexCode? {source : String} (h : lexCode? source = .ok ts) :
    AreLexemes source ts := by
  have hproper := Proper.of_lexed (lexed_of_lexCode? h)
  obtain ⟨lexemes, hscan, rfl⟩ := exists_ofChars_of_lexCode? h
  have htiled : IsTiledBy source lexemes := isTiledBy_of_lex? (by rw [lex?, hscan]; rfl)
  have horder : InOrder lexemes := ⟨fun t ht => (htiled.cuts t ht).1, htiled.ordered.imp And.right⟩
  have hsub := List.filter_sublist (p := fun t : Lexeme => t.token != .comment) (l := lexemes)
  exact ⟨horder.sublist hsub, hproper, fun t ht => (htiled.cuts t (hsub.subset ht)).2⟩

/-- A node that is read from some of the lexemes has the span from the first to the last of them. -/
theorem AreLexemes.hasExactSpan {source : String} {lexemes before after : List Lexeme} {d : Expr}
    (h : AreLexemes source lexemes) (hsplit : lexemes = before ++ ts ++ after)
    (hread : Reads ts d) :
    HasExactSpan source lexemes d := by
  have hsub : ts.Sublist lexemes := by
    rw [hsplit]
    exact (List.sublist_append_right _ _).trans (List.sublist_append_left _ _)
  have horder := h.inOrder.sublist hsub
  have hcovers := hread.covers horder
  obtain ⟨hconstruct, hparts⟩ := hread
  have hsegments := hconstruct.segmented
  have hwritten := hconstruct.map_snd (h.proper.subset hsub.subset)
  have hspans := hsegments.covers horder hparts
  refine ⟨⟨before, ts, after, hsplit, .node hconstruct hparts, hcovers⟩, ?_, ?_, ?_⟩
  · exact hcovers.isBoundary fun t ht => h.cuts t (hsub.subset ht)
  · intro child hchild
    rw [← Expr.mem_written, ← hwritten] at hchild
    obtain ⟨part, hpart, rfl⟩ := List.mem_map.1 hchild
    exact (hspans part hpart).within hcovers horder (hsegments.sublist part hpart).subset
  · rw [← hwritten]
    exact hsegments.pairwise horder hspans

/-- A program is read from the lexemes of its source, statement after statement.  The span of
every node is that of the construct: from its first lexeme to its last one, with those of its parts
inside and in written order. -/
theorem spans_are_exact_and_nested {source : String} {program : List Expr}
    (h : parseProgram source = .ok program) : ∃ lexemes, lexCode? source = .ok lexemes ∧
      Parser.ReadsAll Token.IsStatementGap lexemes program ∧
      (∀ e ∈ program, ∀ d, Expr.Occurs d e → HasExactSpan source lexemes d) ∧
      program.Pairwise fun a b => a.span.Before b.span := by
  unfold parseProgram at h
  split at h
  · next lexemes hlex =>
    have hlexemes := areLexemes_of_lexCode? hlex
    have hreads := Parser.reads_of_program h
    obtain ⟨stmts, rfl, hbetween, hstmts⟩ := hreads
    refine ⟨lexemes, hlex, ⟨stmts, rfl, hbetween, hstmts⟩, ?_, ?_⟩
    · intro e he d hoccurs
      obtain ⟨stmt, hstmt, rfl⟩ := List.mem_map.1 he
      obtain ⟨before, after, hsplit⟩ := hbetween.exists_split stmt hstmt
      have hsub := (hbetween.sublist stmt hstmt).subset
      -- the node is read from lexemes of its statement, and these are lexemes of the source
      obtain ⟨before', ts, after', hts, hread⟩ :=
        (hstmts stmt hstmt).exists_split hoccurs (hlexemes.proper.subset hsub)
      have hlexemes_split : lexemes = before ++ before' ++ ts ++ (after' ++ after) := by
        rw [hsplit, hts]
        simp only [List.append_assoc]
      exact hlexemes.hasExactSpan hlexemes_split hread
    · exact hbetween.pairwise hlexemes.inOrder (hbetween.covers hlexemes.inOrder hstmts)
  · cases h

/-- An operator with its right operand on the next line, within a call. -/
theorem spans_of_broken_sum : ∃ lexemes, lexCode? "f(a +\n 1); x" = .ok lexemes ∧
    HasExactSpan "f(a +\n 1); x" lexemes
      (.call (.sym "+" ⟨4, 1⟩) [.sym "a" ⟨2, 1⟩, .lit (.int 1) ⟨7, 1⟩] ⟨2, 6⟩) := by
  have hscan : Scan.ofChars 0 "f(a +\n 1); x".toList = ⟨[⟨.ident "f", ⟨0, 1⟩, "f"⟩,
      ⟨.leftParen, ⟨1, 1⟩, "("⟩, ⟨.ident "a", ⟨2, 1⟩, "a"⟩, ⟨.plus, ⟨4, 1⟩, "+"⟩,
      ⟨.newline, ⟨5, 1⟩, "\n"⟩, ⟨.int 1, ⟨7, 1⟩, "1"⟩, ⟨.rightParen, ⟨8, 1⟩, ")"⟩,
      ⟨.semicolon, ⟨9, 1⟩, ";"⟩, ⟨.ident "x", ⟨11, 1⟩, "x"⟩], none⟩ := by decide +kernel
  have hparse : parseProgram "f(a +\n 1); x" = .ok [.call (.sym "f" ⟨0, 1⟩)
      [.call (.sym "+" ⟨4, 1⟩) [.sym "a" ⟨2, 1⟩, .lit (.int 1) ⟨7, 1⟩] ⟨2, 6⟩] ⟨0, 9⟩,
      .sym "x" ⟨11, 1⟩] := by
    rw [parseProgram, lexCode?_of_ofChars hscan]
    rfl
  obtain ⟨lexemes, hlex, -, hspans, -⟩ := spans_are_exact_and_nested hparse
  refine ⟨lexemes, hlex, hspans _ List.mem_cons_self _ (.child ?_ .self)⟩
  simp [Expr.children, Expr.parts]

end PipeLang
