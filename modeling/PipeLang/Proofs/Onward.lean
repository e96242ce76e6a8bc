import PipeLang.Proofs.Tracking

/-!
# Parsing without backtracking

The parser ends on every list of lexemes, with statements or with an error, and its cursor has gone
onward (`program_onward`).  What that means is said by `Cursor.Onward`: the cursor stays within the
lexemes, passes over each of them once and goes back only over line breaks, where these do not lead
to an alternative; there is at most one atom more than lexemes; and the number of all moves is
bounded by the number of lexemes.

* Lists of parameters read a lexeme in every round, so their walk needs no fuel beyond the number of
  lexemes (`tracks_params`).
* Every other part is followed by its walk (`followed`), by induction on the fuel.  How much effort
  a part takes when it succeeds and when it fails is fixed for all parts at once (`Followed`), such
  that an atom pays with its first lexeme for all that begins before the next lexeme is passed.
* The trail of a whole program then has the properties of every trail (`Leads.onward`).
-/

namespace PipeLang.Parser

variable {tokens ts rest : List Lexeme} {complete free : Bool} {c : Cursor} {t : Lexeme}
  {more : Int}

/-! ### Parameters -/

theorem next_newline (h : t.token = .newline) (ts : List Lexeme) :
    next true (t :: ts) = next true ts := by
  rw [next, next, show ahead true (t :: ts) = ahead true ts from skipNewlines_newline h]

theorem next_cons (h : t.token ≠ .newline) (ts : List Lexeme) :
    next true (t :: ts) = .ok (t, ts) :=
  next_of_ahead (skipNewlines_cons h)

/-- A list of parameters, by what the grammar sees of it. -/
theorem paramNames_eq (ts : List Lexeme) : paramNames ts = next true ts >>= fun (t, rest) =>
    match t.token with
    | .rightParen => .ok ([], rest)
    | .ident name => afterParam rest >>= fun (names, rest) => .ok (name :: names, rest)
    | .dot => afterParam rest >>= fun (names, rest) => .ok (placeholder :: names, rest)
    | _ => .error (.unexpected t) := by
  induction ts with
  | nil => rfl
  | cons t ts ih =>
    by_cases ht : t.token = .newline
    · rw [next_newline ht, ← ih, paramNames, ht]
    · rw [next_cons ht, Outcome.ok_bind, paramNames]
      cases htoken : t.token with
      | newline => exact absurd htoken ht
      | _ => simp only [htoken]

theorem afterParam_eq (ts : List Lexeme) : afterParam ts = next true ts >>= fun (t, rest) =>
    if t.token = .rightParen then .ok ([], rest)
    else if t.token = .comma then paramNames rest
    else .error (.unexpected t) := by
  induction ts with
  | nil => rfl
  | cons t ts ih =>
    by_cases ht : t.token = .newline
    · rw [next_newline ht, ← ih, afterParam, ht]
    · rw [next_cons ht, Outcome.ok_bind, afterParam]
      cases htoken : t.token with
      | newline => exact absurd htoken ht
      | _ => simp [htoken]

theorem tracks_afterParam {fuel : Nat} {others : Walk (List String)}
    (hothers : ∀ {ts c}, c.left tokens = ts → ts.length < fuel →
      Tracks tokens Same (-5) 1 c (paramNames ts) (others tokens c))
    (hc : c.left tokens = ts) (hfuel : ts.length ≤ fuel) (name : String) :
    Tracks tokens Same (-6) 0 c
      (afterParam ts >>= fun (names, rest) => .ok (name :: names, rest))
      (Walk.afterParam others name tokens c) := by
  rw [afterParam_eq, bind_assoc]
  refine (tracks_next hc).and_eq.bind (by decide) ?_
  rintro _ sep d ⟨hsep, rfl⟩
  have hlt := length_lt_of_next hsep
  dsimp only
  split
  · exact .pure rfl (by decide)
  · split
    · refine (hothers rfl (by omega)).bind (by decide) ?_
      rintro _ names d rfl
      exact .pure rfl (by decide)
    · exact .fail _ (by decide)

/-- Parameter lists never ask for more rounds than there are lexemes. -/
theorem tracks_params {fuel : Nat} (hc : c.left tokens = ts) (hfuel : ts.length < fuel) :
    Tracks tokens Same (-5) 1 c (paramNames ts) (Walk.params fuel tokens c) := by
  induction fuel generalizing ts c with
  | zero => exact absurd hfuel (Nat.not_lt_zero _)
  | succ fuel ih =>
    rw [Walk.params, paramNames_eq]
    refine .enter (by decide) hc fun d hd => ?_
    refine (tracks_next hd).and_eq.bind (by decide) ?_
    rintro _ t d ⟨hnext, rfl⟩
    have hlt := length_lt_of_next hnext
    have hmore := tracks_afterParam ih (c := d) rfl (by omega)
    dsimp only
    cases t.token with
    | rightParen => exact .pure rfl (by decide)
    | ident name => exact (hmore name).mono (by decide) (by decide)
    | dot => exact (hmore placeholder).mono (by decide) (by decide)
    | _ => exact .fail _ (by decide)

/-! ### Every part of the parser -/

/-- How each part of the parser ends on its way through the lexemes, at one amount of fuel.  The
numbers say how much effort it takes when it succeeds and when it fails, beyond six units for each
position that it comes further. -/
structure Followed (tokens : List Lexeme) (fuel : Nat) : Prop where
  expr : ∀ {free least ts c}, c.left tokens = ts →
    Tracks tokens Same (-1) 3 c (expr fuel free least ts) (Walk.expr fuel free least tokens c)
  infixTail : ∀ {free least lhs ts c}, c.left tokens = ts →
    Tracks tokens Same 1 1 c (infixTail fuel free least lhs ts)
      (Walk.infixTail fuel free least lhs tokens c)
  operand : ∀ {free ts c}, c.left tokens = ts →
    Tracks tokens Same (-3) 2 c (operand fuel free ts) (Walk.operand fuel free tokens c)
  postfixTail : ∀ {free lhs ts c}, c.left tokens = ts →
    Tracks tokens Same 1 1 c (postfixTail fuel free lhs ts)
      (Walk.postfixTail fuel free lhs tokens c)
  atom : ∀ {free ts c}, c.left tokens = ts →
    Tracks tokens Same (-5) 1 c (atom fuel free ts) (Walk.atom fuel free tokens c)
  signed : ∀ {free op s ts c}, c.left tokens = ts →
    Tracks tokens Same 0 4 c (signed fuel free op s ts) (Walk.signed fuel free op s tokens c)
  lambda : ∀ {free s ts c}, c.left tokens = ts →
    Tracks tokens Same 0 4 c (lambda fuel free s ts) (Walk.lambda fuel free s tokens c)
  conditional : ∀ {free s ts c}, c.left tokens = ts →
    Tracks tokens Same 0 4 c (conditional fuel free s ts) (Walk.conditional fuel free s tokens c)
  exprs : ∀ {close ts c}, c.left tokens = ts →
    Tracks tokens SameBoth 0 4 c (exprs fuel close ts) (Walk.exprs fuel close tokens c)
  recordFields : ∀ {ts c}, c.left tokens = ts →
    Tracks tokens SameBoth 0 4 c (recordFields fuel ts) (Walk.recordFields fuel tokens c)
  statements : ∀ {close ts c}, c.left tokens = ts →
    Tracks tokens Same 1 4 c (statements fuel close ts) (Walk.statements fuel close tokens c)

section

variable {fuel least : Nat} {lhs : Expr} {op : String} {s : Span} {close : Token}
  (ih : Followed tokens fuel) (hc : c.left tokens = ts)

include ih hc

theorem tracks_expr :
    Tracks tokens Same (-1) 3 c (expr (fuel + 1) free least ts)
      (Walk.expr (fuel + 1) free least tokens c) := by
  rw [expr, Walk.expr]
  refine .enter (by decide) hc fun d hd => ?_
  refine (ih.operand hd).bind (by decide) ?_
  rintro _ lhs d rfl
  exact (ih.infixTail rfl).mono (by decide) (by decide)

/-- A look at the next operator passes over newlines where they mean nothing, and gives none back.
-/
theorem tracks_infixTail :
    Tracks tokens Same 1 1 c (infixTail (fuel + 1) free least lhs ts)
      (Walk.infixTail (fuel + 1) free least lhs tokens c) := by
  rw [infixTail, Walk.infixTail]
  refine .enter (by decide) hc fun d hd => ?_
  refine .peek hd fun d hd => ?_
  generalize ahead free ts = us at hd
  cases us with
  | nil => exact .pure (by rw [hd]; rfl) (by decide)
  | cons t rest =>
    dsimp only [List.head?_cons]
    cases InfixOp.ofToken? t.token with
    | none => exact .pure (by rw [hd]; rfl) (by decide)
    | some op =>
      dsimp only
      split
      · exact .pure (by rw [hd]; rfl) (by decide)
      · refine .pass hd fun d hd => ?_
        refine .skip hd fun d hd => ?_
        refine (ih.expr hd).bind (by decide) ?_
        rintro _ rhs d rfl
        exact (ih.infixTail rfl).mono (by decide) (by decide)

theorem tracks_operand :
    Tracks tokens Same (-3) 2 c (operand (fuel + 1) free ts)
      (Walk.operand (fuel + 1) free tokens c) := by
  rw [operand, Walk.operand]
  refine .enter (by decide) hc fun d hd => ?_
  refine (ih.atom hd).bind (by decide) ?_
  rintro _ lhs d rfl
  exact (ih.postfixTail rfl).mono (by decide) (by decide)

/-- The next token is looked at where the cursor stands. -/
theorem tracks_postfixTail :
    Tracks tokens Same 1 1 c (postfixTail (fuel + 1) free lhs ts)
      (Walk.postfixTail (fuel + 1) free lhs tokens c) := by
  rw [Walk.postfixTail]
  cases ts with
  | nil =>
    rw [postfixTail]
    refine .enter (by decide) hc fun d hd => ?_
    exact .current hd (.pure (by rw [hd]; rfl) (by decide))
  | cons t rest =>
    rw [postfixTail]
    refine .enter (by decide) hc fun d hd => ?_
    refine .current hd ?_
    dsimp only [List.head?_cons]
    cases t.token with
    | leftParen =>
      refine .pass hd fun d hd => ?_
      refine (ih.exprs hd).bind (by decide) ?_
      rintro _ ⟨args, close⟩ d rfl
      exact (ih.postfixTail rfl).mono (by decide) (by decide)
    | dollar =>
      refine .pass hd fun d hd => ?_
      refine (tracks_expectName hd).bind (by decide) ?_
      rintro _ ⟨name, s⟩ d rfl
      exact (ih.postfixTail rfl).mono (by decide) (by decide)
    | _ => exact .pure (by rw [hd]; rfl) (by decide)

/-- An atom takes the token that it starts with. -/
theorem tracks_atom :
    Tracks tokens Same (-5) 1 c (atom (fuel + 1) free ts)
      (Walk.atom (fuel + 1) free tokens c) := by
  rw [atom, Walk.atom]
  refine (tracks_takeFirst hc).bind (by decide) ?_
  rintro _ t d rfl
  dsimp only
  cases Start.ofToken? t.token with
  | none => exact .fail _ (by decide)
  | some start =>
    cases start with
    | literal literal => exact .pure rfl (by decide)
    | symbol name => exact .pure rfl (by decide)
    | sign op => exact (ih.signed rfl).mono (by decide) (by decide)
    | paren =>
      refine (ih.expr rfl).bind (by decide) ?_
      rintro _ inner d rfl
      refine (tracks_expect rfl).bind (by decide) ?_
      rintro _ close d rfl
      exact .pure rfl (by decide)
    | bracket =>
      refine (ih.exprs rfl).bind (by decide) ?_
      rintro _ ⟨items, close⟩ d rfl
      exact .pure rfl (by decide)
    | brace =>
      -- whether a brace opens a record is seen without moving
      refine .look ?_
      dsimp only
      split
      · refine (ih.recordFields rfl).bind (by decide) ?_
        rintro _ ⟨fields, close⟩ d rfl
        exact .pure rfl (by decide)
      · refine (ih.statements rfl).bind (by decide) ?_
        rintro _ stmts d rfl
        refine (tracks_expect rfl).bind (by decide) ?_
        rintro _ close d rfl
        exact .pure rfl (by decide)
    | function => exact (ih.lambda rfl).mono (by decide) (by decide)
    | condition => exact (ih.conditional rfl).mono (by decide) (by decide)

theorem tracks_signed :
    Tracks tokens Same 0 4 c (signed (fuel + 1) free op s ts)
      (Walk.signed (fuel + 1) free op s tokens c) := by
  rw [signed, Walk.signed]
  refine .enter (by decide) hc fun d hd => ?_
  refine (ih.expr hd).bind (by decide) ?_
  rintro _ operand d rfl
  exact .pure rfl (by decide)

theorem tracks_lambda :
    Tracks tokens Same 0 4 c (lambda (fuel + 1) free s ts)
      (Walk.lambda (fuel + 1) free s tokens c) := by
  rw [lambda, Walk.lambda]
  refine .enter (by decide) hc fun d hd => ?_
  refine (tracks_expect hd).bind (by decide) ?_
  rintro _ _ d rfl
  refine .look ?_
  refine (tracks_params rfl (Nat.lt_succ_self _)).bind (by decide) ?_
  rintro _ names d rfl
  refine .skip rfl fun d hd => ?_
  refine (ih.expr hd).bind (by decide) ?_
  rintro _ body d rfl
  exact .pure rfl (by decide)

/-- Newlines before `else` are the only ones that are given back. -/
theorem tracks_conditional :
    Tracks tokens Same 0 4 c (conditional (fuel + 1) free s ts)
      (Walk.conditional (fuel + 1) free s tokens c) := by
  rw [conditional, Walk.conditional]
  refine .enter (by decide) hc fun d hd => ?_
  refine (tracks_expect hd).bind (by decide) ?_
  rintro _ _ d rfl
  refine (ih.expr rfl).bind (by decide) ?_
  rintro _ cond d rfl
  refine (tracks_expect rfl).bind (by decide) ?_
  rintro _ _ d rfl
  refine .skip rfl fun d hd => ?_
  refine (ih.expr hd).bind (by decide) ?_
  rintro _ yes d rfl
  dsimp only
  generalize hus : d.left tokens = us
  refine tracks_findElse hus (fun t rest d hskip ht hd => ?_) fun hnext d hd => ?_
  · rw [hskip]
    dsimp only
    rw [if_pos ht]
    refine .skip hd fun d hd => ?_
    refine (ih.expr hd).bind (by decide) ?_
    rintro _ no d rfl
    exact .pure rfl (by decide)
  · cases hskip : skipNewlines us with
    | nil => exact .pure (by rw [hd]; rfl) (by decide)
    | cons t rest =>
      dsimp only
      rw [if_neg (hnext t (by rw [hskip]; rfl))]
      exact .pure (by rw [hd]; rfl) (by decide)

theorem tracks_exprs :
    Tracks tokens SameBoth 0 4 c (exprs (fuel + 1) close ts)
      (Walk.exprs (fuel + 1) close tokens c) := by
  rw [exprs, Walk.exprs]
  refine .enter (by decide) hc fun d hd => ?_
  refine .peek hd fun d hd => ?_
  rw [show ahead true ts = skipNewlines ts from rfl] at hd ⊢
  generalize skipNewlines ts = us at hd
  cases us with
  | nil =>
    -- The parser fails at once here; the walk fails where the first atom finds no lexeme.
    refine .enter (by decide) hd fun d hd => ?_
    refine .enter (by decide) hd fun d hd => ?_
    refine Tracks.bind (x := next true []) (f := fun (t, _) => .error (.unexpected t))
      (tracks_takeFirst hd) (by decide) ?_
    rintro _ t d rfl
    exact .fail _ (by decide)
  | cons t rest =>
    dsimp only [List.head?_cons]
    split
    · refine .pass hd fun d hd => ?_
      exact .pure (by rw [hd]; rfl) (by decide)
    · refine (ih.expr hd).bind (by decide) ?_
      rintro _ first d rfl
      refine (tracks_next rfl).bind (by decide) ?_
      rintro _ sep d rfl
      dsimp only
      split
      · exact .pure rfl (by decide)
      · split
        · refine (ih.exprs rfl).bind (by decide) ?_
          rintro _ ⟨others, stop⟩ d rfl
          exact .pure rfl (by decide)
        · exact .fail _ (by decide)

/-- Each field is a name, a colon and an expression, behind newlines that are passed over. -/
theorem tracks_recordFields :
    Tracks tokens SameBoth 0 4 c (recordFields (fuel + 1) ts)
      (Walk.recordFields (fuel + 1) tokens c) := by
  rw [recordFields, Walk.recordFields]
  refine .enter (by decide) hc fun d hd => ?_
  refine .peek hd fun d hd => ?_
  rw [show ahead true ts = skipNewlines ts from rfl] at hd ⊢
  generalize skipNewlines ts = us at hd
  cases us with
  | nil => exact .fail _ (by decide)
  | cons t rest =>
    dsimp only [List.head?_cons]
    split
    · refine .pass hd fun d hd => ?_
      exact .pure (by rw [hd]; rfl) (by decide)
    · refine (tracks_expectName hd).bind (by decide) ?_
      rintro _ ⟨name, _⟩ d rfl
      refine (tracks_expect rfl).bind (by decide) ?_
      rintro _ _ d rfl
      refine (ih.expr rfl).bind (by decide) ?_
      rintro _ first d rfl
      refine (tracks_next rfl).bind (by decide) ?_
      rintro _ sep d rfl
      dsimp only
      split
      · exact .pure rfl (by decide)
      · split
        · refine (ih.recordFields rfl).bind (by decide) ?_
          rintro _ ⟨others, stop⟩ d rfl
          exact .pure rfl (by decide)
        · exact .fail _ (by decide)

/-- Each statement is an expression, and what ends it is only looked at. -/
theorem tracks_statements {close : Option Token} :
    Tracks tokens Same 1 4 c (statements (fuel + 1) close ts)
      (Walk.statements (fuel + 1) close tokens c) := by
  rw [statements, Walk.statements]
  refine .enter (by decide) hc fun d hd => ?_
  refine .skip hd fun d hd => ?_
  refine .current hd ?_
  rw [show ts.dropWhile _ = skipSeparators ts from rfl] at hd ⊢
  generalize skipSeparators ts = us at hd
  cases us with
  | nil => exact .pure (by rw [hd]; rfl) (by decide)
  | cons t rest =>
    dsimp only [List.head?_cons]
    split
    · exact .pure (by rw [hd]; rfl) (by decide)
    · refine (ih.expr hd).bind (by decide) ?_
      rintro _ first d rfl
      refine .current rfl ?_
      dsimp only
      cases hleft : d.left tokens with
      | nil => exact .pure (by rw [hleft]; rfl) (by decide)
      | cons u rest =>
        dsimp only [List.head?_cons]
        split
        · rw [← hleft]
          refine (ih.statements rfl).bind (by decide) ?_
          rintro _ others d rfl
          exact .pure rfl (by decide)
        · exact .fail _ (by decide)

end

/-- Every part of the parser ends where its moves lead, whatever its fuel. -/
theorem followed (tokens : List Lexeme) (fuel : Nat) : Followed tokens fuel := by
  induction fuel with
  | zero =>
    constructor <;> intros <;>
      simp only [expr, infixTail, operand, postfixTail, atom, signed, lambda, conditional, exprs,
        recordFields, statements, Walk.expr, Walk.infixTail, Walk.operand, Walk.postfixTail,
        Walk.atom, Walk.signed, Walk.lambda, Walk.conditional, Walk.exprs, Walk.recordFields,
        Walk.statements] <;>
      exact .outOfFuel _
  | succ fuel ih =>
    exact {
      expr := tracks_expr ih
      infixTail := tracks_infixTail ih
      operand := tracks_operand ih
      postfixTail := tracks_postfixTail ih
      atom := tracks_atom ih
      signed := tracks_signed ih
      lambda := tracks_lambda ih
      conditional := tracks_conditional ih
      exprs := tracks_exprs ih
      recordFields := tracks_recordFields ih
      statements := fun hc => tracks_statements ih hc }

/-! ### Programs -/

/-- Statements that no closing token ends go to the end. -/
theorem eq_nil_of_statements {fuel : Nat} {es : List Expr}
    (h : statements fuel none ts = .ok (es, rest)) : rest = [] := by
  induction fuel generalizing ts es with
  | zero => cases h
  | succ fuel ih =>
    rw [statements] at h
    split at h
    · cases h
      rfl
    · split at h
      · next hclose => cases hclose
      · obtain ⟨⟨first, ts⟩, -, h⟩ := Outcome.bind_eq_ok_iff.1 h
        dsimp only at h
        split at h
        · cases h
          rfl
        · split at h
          · obtain ⟨⟨others, ts⟩, hothers, h⟩ := Outcome.bind_eq_ok_iff.1 h
            cases h
            exact ih hothers
          · cases h

theorem tracks_program {fuel : Nat} (hc : c.left tokens = ts) :
    Tracks tokens Same 1 4 c (statements fuel none ts) (Walk.program fuel tokens c) := by
  rw [Walk.program, ← bind_pure (statements fuel none ts)]
  refine ((followed tokens fuel).statements hc).and_eq.bind (by decide) ?_
  rintro _ es d ⟨hes, rfl⟩
  have hleft := eq_nil_of_statements hes
  refine .current hleft ?_
  exact .pure rfl (by decide)

/-- The moves of a cursor that goes on from the first lexeme without backtracking. -/
structure Cursor.Onward (tokens : List Lexeme) (c : Cursor) : Prop where
  /-- Each move starts where the one before it has ended. -/
  path : Path 0 c.moves c.index
  /-- No move starts or ends beyond the last lexeme. -/
  within : c.index ≤ tokens.length ∧
    ∀ m ∈ c.moves, m.start ≤ tokens.length ∧ m.stop ≤ tokens.length
  /-- No lexeme is taken by two atoms, or twice. -/
  taken : (c.moves.filterMap Move.taken?).Pairwise (· < ·)
  atoms : c.moves.countP Move.entersAtom ≤ tokens.length + 1
  /-- No lexeme but a line break is passed over twice, by whatever part. -/
  passed : ((c.moves.filterMap Move.passed?).filter fun i =>
    !isAt tokens .newline i).Pairwise (· < ·)
  /-- The cursor goes back only where there is no alternative, and only over line breaks. -/
  back : ∀ m ∈ c.moves, m.stop < m.start → m = .noElse m.start m.stop ∧
    isAt tokens .elseWord m.start = false ∧
      ∀ k, m.stop ≤ k → k < m.start → isAt tokens .newline k = true
  /-- Few parts begin, and few searches for an alternative are in vain. -/
  effort : effort c.moves ≤ 6 * tokens.length + 4
  moves : c.moves.length ≤ (6 * tokens.length + 5) * (tokens.length + 1)

theorem Move.Lawful.within {m : Move} (h : m.Lawful tokens) :
    m.start ≤ tokens.length ∧ m.stop ≤ tokens.length := by
  cases m with
  | enter part i => exact ⟨h, h⟩
  | pass i => exact ⟨Nat.le_of_lt h, h⟩
  | take i => exact ⟨Nat.le_of_lt h, h⟩
  | noElse i back => exact ⟨h.2.1, Nat.le_trans h.1 h.2.1⟩

theorem Move.Lawful.back {m : Move} (h : m.Lawful tokens) (hback : m.stop < m.start) :
    m = .noElse m.start m.stop ∧ isAt tokens .elseWord m.start = false ∧
      ∀ k, m.stop ≤ k → k < m.start → isAt tokens .newline k = true := by
  cases m with
  | enter part i => exact absurd hback (Nat.lt_irrefl i)
  | pass i => exact absurd hback (Nat.not_succ_lt_self)
  | take i => exact absurd hback (Nat.not_succ_lt_self)
  | noElse i back => exact ⟨rfl, h.2.2⟩

/-- What a trail says about moves is what is claimed of the walk. -/
theorem Leads.onward (h : Leads tokens complete more .start c) (hmore : more ≤ 4) :
    c.Onward tokens := by
  obtain ⟨ms, hmoves, htrail, heffort⟩ := h
  obtain rfl : c.moves = ms := hmoves
  have hindex : c.index ≤ tokens.length := htrail.le_length (Nat.zero_le _)
  have hlawful := htrail.lawful (Nat.zero_le _)
  have hatoms : c.moves.countP Move.entersAtom + 0 ≤ c.index + (if complete then 0 else 1) :=
    htrail.atoms_le
  have hlength : c.moves.length + 0 ≤ c.index + effort c.moves * (tokens.length + 1) :=
    htrail.length_le (Nat.zero_le _)
  -- each token that is passed pays for six efforts
  have hlimit : effort c.moves ≤ 6 * tokens.length + 4 := by
    have hzero : Cursor.start.index = 0 := rfl
    omega
  exact {
    path := htrail.path
    within := ⟨hindex, fun m hm => (hlawful m hm).within⟩
    taken := (htrail.ascending (picks_taken tokens)).1
    atoms := by
      split at hatoms <;> omega
    passed := by
      rw [List.filter_filterMap]
      exact (htrail.ascending (picks_passed tokens)).1
    back := fun m hm => (hlawful m hm).back
    effort := hlimit
    moves := calc
      c.moves.length ≤ c.index + effort c.moves * (tokens.length + 1) := hlength
      _ ≤ (tokens.length + 1) + (6 * tokens.length + 4) * (tokens.length + 1) :=
        Nat.add_le_add (Nat.le_succ_of_le hindex) (Nat.mul_le_mul_right _ hlimit)
      _ = (6 * tokens.length + 5) * (tokens.length + 1) :=
        (Nat.add_comm _ _).trans (Nat.succ_mul _ _).symm }

/-- The parser ends on every list of lexemes, with statements or with an error, and on its way it
does not backtrack. -/
theorem program_onward (tokens : List Lexeme) : ∃ c : Cursor, c.Onward tokens ∧
    ((∃ es, program tokens = .ok es ∧ Walk.ofProgram tokens = (.ok es, c) ∧
        c.index = tokens.length) ∨
      ∃ e, program tokens = .error e ∧ Walk.ofProgram tokens = (.error e, c)) := by
  have htracks : Tracks tokens Same 1 4 .start (statements (4 * tokens.length + 4) none tokens)
      (Walk.ofProgram tokens) := tracks_program rfl
  generalize hx : statements (4 * tokens.length + 4) none tokens = x at htracks
  generalize Walk.ofProgram tokens = out at htracks
  cases htracks with
  | @ok a es d h hleads =>
    obtain rfl : a = (es, d.left tokens) := h
    have hleft := eq_nil_of_statements hx
    have honward := hleads.onward (by decide)
    rw [program_of_statements hx (by simp)]
    refine ⟨d, honward, .inl ⟨es, rfl, rfl, ?_⟩⟩
    exact Nat.le_antisymm honward.within.1 (List.drop_eq_nil_iff.1 hleft)
  | @error e d hleads =>
    rw [program_of_statements hx (by simp)]
    exact ⟨d, hleads.onward (by decide), .inr ⟨e, rfl, rfl⟩⟩
  | outOfFuel d => exact absurd hx (statements_ne_outOfFuel (Nat.le_refl _))

/-- Line breaks after a branch are given back, and then separate statements: an empty line follows
`if (x) y` here, and after it `z`. -/
theorem onward_after_lone_branch :
    ∃ ts, lexCode? "if (x) y\n\nz" = .ok ts ∧ ∃ c : Cursor, c.Onward ts ∧
      (c.moves.filter fun m => m.stop < m.start) = [.noElse 7 5] := by
  have hts : Scan.ofChars 0 "if (x) y\n\nz".toList = ⟨[⟨.ifWord, ⟨0, 2⟩, "if"⟩,
      ⟨.leftParen, ⟨3, 1⟩, "("⟩, ⟨.ident "x", ⟨4, 1⟩, "x"⟩, ⟨.rightParen, ⟨5, 1⟩, ")"⟩,
      ⟨.ident "y", ⟨7, 1⟩, "y"⟩, ⟨.newline, ⟨8, 1⟩, "\n"⟩, ⟨.newline, ⟨9, 1⟩, "\n"⟩,
      ⟨.ident "z", ⟨10, 1⟩, "z"⟩], none⟩ := by decide +kernel
  obtain ⟨ts, hlex, hback⟩ : ∃ ts, lexCode? "if (x) y\n\nz" = .ok ts ∧
      ((Walk.ofProgram ts).2.moves.filter fun m => m.stop < m.start) = [.noElse 7 5] :=
    ⟨_, lexCode?_of_ofChars hts, by decide +kernel⟩
  obtain ⟨c, honward, hanswer⟩ := program_onward ts
  have hc : (Walk.ofProgram ts).2 = c := by
    rcases hanswer with ⟨es, -, h, -⟩ | ⟨e, -, h⟩ <;> rw [h]
  exact ⟨ts, hlex, c, honward, hc ▸ hback⟩

end PipeLang.Parser
