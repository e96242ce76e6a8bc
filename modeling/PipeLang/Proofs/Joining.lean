import PipeLang.Parser.Program
import PipeLang.Proofs.Boundary
import PipeLang.Proofs.Extension

/-!
# Programs joined by a line break

Two programs with a line break between them are a program: the statements of the first one and
then those of the second one, each span of these further on by the length of the first text and one
byte more (`parseProgram_append`).  The stages are

1. the joined text is cut into the lexemes of the first text, the line break, and the lexemes of
   the second text moved (`lexCode?_append`);
2. the second program does not start with `else`, so the statements of the first one are read as
   before (`extends_of_detached`);
3. then those of the second one are read (`program_append`).
-/

namespace PipeLang

/-! ### Lexemes -/

theorem utf8ByteSize_ofList (text : List Char) :
    (String.ofList text).utf8ByteSize = byteLength text := by
  induction text with
  | nil => simp
  | cons c text ih =>
    rw [← List.singleton_append, String.ofList_append, String.utf8ByteSize_append, ih]
    simp

/-- The bytes of a text are those of its characters. -/
theorem byteLength_toList (s : String) : byteLength s.toList = s.utf8ByteSize := by
  rw [← utf8ByteSize_ofList, String.ofList_toList]

/-- Comments are left out before the lexemes are moved or after. -/
theorem filter_map_shift (k : Nat) (lexemes : List Lexeme) :
    (lexemes.map (Lexeme.shift k)).filter (fun t => t.token != .comment) =
      (lexemes.filter fun t => t.token != .comment).map (Lexeme.shift k) := by
  rw [List.filter_map]
  rfl

/-- The lexemes of two texts with a line break between them. -/
theorem lexCode?_append {s₁ s₂ : String} {ts₁ ts₂ : List Lexeme} (h₁ : lexCode? s₁ = .ok ts₁)
    (h₂ : lexCode? s₂ = .ok ts₂) : ∃ newline : Lexeme, newline.token = .newline ∧
      lexCode? (s₁ ++ "\n" ++ s₂) =
        .ok (ts₁ ++ newline :: ts₂.map (Lexeme.shift (s₁.utf8ByteSize + 1))) := by
  obtain ⟨lexemes₁, hscan₁, rfl⟩ := exists_ofChars_of_lexCode? h₁
  obtain ⟨lexemes₂, hscan₂, rfl⟩ := exists_ofChars_of_lexCode? h₂
  have hlist : (s₁ ++ "\n" ++ s₂).toList = s₁.toList ++ '\n' :: s₂.toList := by
    rw [String.toList_append, String.toList_append, List.append_assoc]
    rfl
  -- the second text is cut as it is where it stands alone
  have hmoved : Scan.ofChars (s₁.utf8ByteSize + 1) s₂.toList =
      ⟨lexemes₂.map (Lexeme.shift (s₁.utf8ByteSize + 1)), none⟩ := by
    rw [← Nat.zero_add (s₁.utf8ByteSize + 1), Scan.ofChars_add, hscan₂, Nat.zero_add]
    rfl
  let newline : Lexeme := ⟨.newline, ⟨s₁.utf8ByteSize, 1⟩, "\n"⟩
  have hscan : Scan.ofChars 0 (s₁ ++ "\n" ++ s₂).toList = ⟨lexemes₁ ++
      newline :: lexemes₂.map (Lexeme.shift (s₁.utf8ByteSize + 1)), none⟩ := by
    rw [hlist, Scan.ofChars_boundary .newline _ _ _ (by rw [hscan₁]) (.inl rfl), hscan₁,
      byteLength_toList, Nat.zero_add, Scan.ofChars_newline, hmoved]
    rfl
  refine ⟨newline, rfl, ?_⟩
  rw [lexCode?_of_ofChars hscan, List.filter_append, List.filter_cons_of_pos rfl, filter_map_shift]

namespace Parser

variable {ts : List Lexeme} {es : List Expr} {t : Lexeme} {rest : List Lexeme}

/-! ### Statements -/

/-- An expression starts with a token that starts an operand. -/
theorem isSome_of_expr {fuel least : Nat} {e : Expr} {tail : List Lexeme}
    (h : expr fuel false least (t :: rest) = .ok (e, tail)) :
    (Start.ofToken? t.token).isSome := by
  obtain _ | _ | _ | fuel := fuel
  · rw [expr] at h
    cases h
  · rw [expr, operand] at h
    cases h
  · rw [expr, operand, atom] at h
    cases h
  · cases hstart : Start.ofToken? t.token with
    | some start => rfl
    | none =>
      have hatom : atom (fuel + 1) false (t :: rest) = .error (.unexpected t) := by
        rw [atom, next_of_ahead rfl, Outcome.ok_bind]
        simp only [hstart]
      rw [expr, operand, hatom] at h
      cases h

/-- Newlines are separators. -/
theorem skipSeparators_skipNewlines (ts : List Lexeme) :
    skipSeparators (skipNewlines ts) = skipSeparators ts := by
  induction ts with
  | nil => rfl
  | cons t rest ih =>
    by_cases ht : t.token = .newline
    · have hskip : skipNewlines (t :: rest) = skipNewlines rest :=
        List.dropWhile_cons_of_pos (by simp [ht])
      have hskip' : skipSeparators (t :: rest) = skipSeparators rest :=
        List.dropWhile_cons_of_pos (by simp [ht])
      rw [hskip, hskip', ih]
    · rw [skipNewlines_cons ht]

/-- No list of statements starts with `else`. -/
theorem ne_elseWord_of_statements {fuel : Nat} (h : statements fuel none ts = .ok (es, rest)) :
    ∀ t ∈ (skipNewlines ts).head?, t.token ≠ .elseWord := by
  intro t ht htoken
  -- an alternative would be the first lexeme of a statement, and starts none
  cases hskip : skipNewlines ts with
  | nil =>
    rw [hskip] at ht
    cases ht
  | cons u tail =>
    rw [hskip] at ht
    cases ht
    have hseparators : skipSeparators ts = t :: tail := by
      rw [← skipSeparators_skipNewlines, hskip]
      exact skipSeparators_cons (by simp [htoken]) (by simp [htoken])
    cases fuel with
    | zero =>
      rw [statements] at h
      cases h
    | succ fuel =>
      rw [statements, hseparators] at h
      obtain ⟨⟨first, mid⟩, he, -⟩ := Outcome.bind_eq_ok_iff.1 h
      have hstart := isSome_of_expr he
      rw [htoken] at hstart
      cases hstart

/-- The statements of a program take all its lexemes. -/
theorem statements_of_program (h : program ts = .ok es) :
    statements (4 * ts.length + 4) none ts = .ok (es, []) := by
  obtain ⟨rest, hstatements⟩ := exists_statements_of_program h
  cases rest with
  | nil => exact hstatements
  | cons t rest => cases closes_of_statements hstatements t rfl

/-- Two programs are read one after the other. -/
theorem program_append {k : Nat} {newline : Lexeme} {ts₁ ts₂ : List Lexeme} {es₁ es₂ : List Expr}
    (hnewline : newline.token = .newline) (h₁ : program ts₁ = .ok es₁)
    (h₂ : program ts₂ = .ok es₂) :
    program (ts₁ ++ newline :: ts₂.map (Lexeme.shift k)) =
      .ok (es₁ ++ es₂.map (Expr.shift k)) := by
  -- nothing follows the second program
  have hend : GivesStatements none [] (.ok ([], [])) := by
    intro fuel hfuel
    obtain ⟨fuel, rfl, -⟩ := exists_succ_of_le hfuel
    rw [statements]
    rfl
  have hsecond : GivesStatements none (ts₂.map (Lexeme.shift k))
      (.ok (es₂.map (Expr.shift k), [])) := by
    have hgives := (extends_of_detached k detached_nil _).statements hend (statements_of_program h₂)
    rwa [placed, List.append_nil, List.append_nil, Expr.shiftAll_eq_map] at hgives
  -- the newline keeps what follows it from going on with the first program
  have hdetached : Detached (newline :: ts₂.map (Lexeme.shift k)) := by
    constructor
    · rintro t ⟨⟩
      exact hnewline
    · have hskip : skipNewlines (newline :: ts₂.map (Lexeme.shift k)) =
          skipNewlines (ts₂.map (Lexeme.shift k)) :=
        List.dropWhile_cons_of_pos (by simp [hnewline])
      rw [hskip]
      exact ne_elseWord_of_statements (hsecond _ (Nat.le_refl _))
  have hboth := (extends_of_detached 0 hdetached _).statements
    (givesStatements_separator (.inl hnewline) hsecond) (statements_of_program h₁)
  have hplaced : placed 0 (newline :: ts₂.map (Lexeme.shift k)) ts₁ =
      ts₁ ++ newline :: ts₂.map (Lexeme.shift k) := by
    rw [placed, show Lexeme.shift 0 = id from funext Lexeme.shift_zero, List.map_id]
  rw [hplaced, Expr.shiftAll_zero] at hboth
  exact program_of_givesStatements hboth

end Parser

/-! ### Programs -/

/-- Programs concatenate: two programs with a line break between them are a program of the
statements of both, those of the second one further on by the length of the first text and one
byte. -/
theorem parseProgram_append {s₁ s₂ : String} {es₁ es₂ : List Expr}
    (h₁ : parseProgram s₁ = .ok es₁) (h₂ : parseProgram s₂ = .ok es₂) :
    parseProgram (s₁ ++ "\n" ++ s₂) =
      .ok (es₁ ++ es₂.map (Expr.shift (s₁.utf8ByteSize + 1))) := by
  unfold parseProgram at h₁ h₂ ⊢
  split at h₁
  · next ts₁ hlex₁ =>
    split at h₂
    · next ts₂ hlex₂ =>
      obtain ⟨newline, hnewline, hlex⟩ := lexCode?_append hlex₁ hlex₂
      rw [hlex]
      exact Parser.program_append hnewline h₁ h₂
    · cases h₂
  · cases h₁

/-- A conditional before a comment, and a program that starts with a parenthesis: the parenthesis
opens no arguments. -/
theorem parseProgram_append_conditional :
    parseProgram "if (a) f # or\n(x)" = .ok [
      .ifThen (.sym "a" ⟨4, 1⟩) (.sym "f" ⟨7, 1⟩) ⟨0, 8⟩,
      .paren (.sym "x" ⟨15, 1⟩) ⟨14, 3⟩] := by
  have hscan₁ : Scan.ofChars 0 "if (a) f # or".toList = ⟨[⟨.ifWord, ⟨0, 2⟩, "if"⟩,
      ⟨.leftParen, ⟨3, 1⟩, "("⟩, ⟨.ident "a", ⟨4, 1⟩, "a"⟩, ⟨.rightParen, ⟨5, 1⟩, ")"⟩,
      ⟨.ident "f", ⟨7, 1⟩, "f"⟩, ⟨.comment, ⟨9, 4⟩, "# or"⟩], none⟩ := by
    decide +kernel
  have hscan₂ : Scan.ofChars 0 "(x)".toList = ⟨[⟨.leftParen, ⟨0, 1⟩, "("⟩,
      ⟨.ident "x", ⟨1, 1⟩, "x"⟩, ⟨.rightParen, ⟨2, 1⟩, ")"⟩], none⟩ := by
    decide +kernel
  have h₁ : parseProgram "if (a) f # or" =
      .ok [.ifThen (.sym "a" ⟨4, 1⟩) (.sym "f" ⟨7, 1⟩) ⟨0, 8⟩] := by
    rw [parseProgram, lexCode?_of_ofChars hscan₁]
    rfl
  have h₂ : parseProgram "(x)" = .ok [.paren (.sym "x" ⟨1, 1⟩) ⟨0, 3⟩] := by
    rw [parseProgram, lexCode?_of_ofChars hscan₂]
    rfl
  have hsource : "if (a) f # or" ++ "\n" ++ "(x)" = "if (a) f # or\n(x)" := by decide +kernel
  have hsize : "if (a) f # or".utf8ByteSize = 13 := by decide +kernel
  have h := parseProgram_append h₁ h₂
  rw [hsource, hsize] at h
  exact h
end PipeLang
