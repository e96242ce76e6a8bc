import PipeLang.Proofs.Escapes
import PipeLang.Proofs.Shift
import PipeLang.Token.Lexer

/-!
# Boundaries of lexemes

No name, number or mark reaches beyond a line break or a quote (`Boundary`): no alphabet of these
classes holds them.  A string or a special operator that is closed is closed before whatever
follows, and only a comment goes on over a quote.  So a text that is cut into lexemes is cut into
the same ones before such a character and any other text (`ofChars_boundary`), and what follows
is cut as if it stood alone, but for its offset (`ofChars_add`).

For each function that says how far a class reaches, one lemma says that it does not look beyond
a boundary, and one that it stays within the text.
-/

namespace PipeLang

namespace LexClass

variable {c d : Char} {cls : LexClass} {n : Nat} {text : List Char}

/-- A character that names, numbers and marks end before. -/
inductive Boundary : Char → Prop
  | newline : Boundary '\n'
  | quote : Boundary '"'

/-! ### How far a class reaches -/

theorem run_le (p : Char → Bool) (text : List Char) : run p text ≤ text.length :=
  (List.takeWhile_sublist p).length_le

/-- A run ends at a character without its property. -/
theorem run_boundary {p : Char → Bool} (hp : p d = false) (text more : List Char) :
    run p (text ++ d :: more) = run p text := by
  induction text with
  | nil => simp [run, hp]
  | cons c text ih =>
    simp only [run, List.cons_append, List.takeWhile_cons] at ih ⊢
    split
    · simp only [List.length_cons, ih]
    · rfl

/-- What has come to an end within a text ends there whatever follows. -/
theorem run_append_of_lt {p : Char → Bool} (h : run p text < text.length) (more : List Char) :
    run p (text ++ more) = run p text := by
  unfold run at h ⊢
  rw [List.takeWhile_append, if_neg (Nat.ne_of_lt h)]

theorem Boundary.continuesName (hd : Boundary d) : continuesName d = false := by cases hd <;> rfl

theorem Boundary.isBlank (hd : Boundary d) : isBlank d = false := by cases hd <;> rfl

theorem Boundary.continuesNumber (hd : Boundary d) : continuesNumber d = false := by
  cases hd <;> rfl

/-- No more is taken for the qualification of a name than is there. -/
theorem qualification_le (text : List Char) : qualification text ≤ text.length := by
  unfold qualification
  split
  · next c rest =>
    have hle := run_le continuesName rest
    split
    · simp only [List.length_cons]
      omega
    · exact Nat.zero_le _
  · exact Nat.zero_le _

/-- A qualification does not go on over a boundary. -/
theorem qualification_boundary (hd : Boundary d) (text more : List Char) :
    qualification (text ++ d :: more) = qualification text := by
  -- a qualification takes two colons and a letter, and the boundary is neither
  rcases text with _ | ⟨a, _ | ⟨b, _ | ⟨c, rest⟩⟩⟩
  · cases hd <;> rfl
  · rw [qualification, qualification]
    all_goals
      rintro x tail ⟨⟩
      try cases hd
  · by_cases h : a = ':' ∧ b = ':'
    · obtain ⟨rfl, rfl⟩ := h
      cases hd <;> rfl
    · rw [qualification, qualification]
      · rintro x tail ⟨⟩
      · rintro x tail ⟨⟩
        exact h ⟨rfl, rfl⟩
  · by_cases h : a = ':' ∧ b = ':'
    · obtain ⟨rfl, rfl⟩ := h
      simp only [List.cons_append, qualification, run_boundary hd.continuesName]
    · rw [qualification, qualification]
      all_goals
        rintro x tail ⟨⟩
        exact h ⟨rfl, rfl⟩

theorem nameTail_le (text : List Char) : nameTail text ≤ text.length := by
  have hplain := run_le continuesName text
  have hqualified := qualification_le (text.drop (run continuesName text))
  rw [List.length_drop] at hqualified
  unfold nameTail
  dsimp only
  omega

/-- A name does not go on beyond a boundary. -/
theorem nameTail_boundary (hd : Boundary d) (text more : List Char) :
    nameTail (text ++ d :: more) = nameTail text := by
  simp only [nameTail, run_boundary hd.continuesName, List.drop_append_of_le_length (run_le _ _),
    qualification_boundary hd]

theorem wordTail_le (text : List Char) : (wordTail text).2 ≤ text.length := by
  unfold wordTail
  dsimp only
  split <;> exact nameTail_le text

/-- A word does not go on beyond a boundary. -/
theorem wordTail_boundary (hd : Boundary d) (text more : List Char) :
    wordTail (text ++ d :: more) = wordTail text := by
  simp only [wordTail, nameTail_boundary hd, List.drop_append_of_le_length (nameTail_le text)]
  rcases text.drop (nameTail text) with _ | ⟨c, rest⟩
  · cases hd <;> rfl
  · rw [List.cons_append]
    by_cases hc : c = ':'
    · rw [hc]
      rfl
    · split <;> split <;> simp_all

theorem fractionPart_le (text : List Char) : fractionPart text ≤ text.length := by
  unfold fractionPart
  split
  · next c rest =>
    have hle := run_le continuesNumber rest
    split
    · simp only [List.length_cons]
      omega
    · exact Nat.zero_le _
  · exact Nat.zero_le _

/-- Nor does the fraction of a number, which would need a digit there. -/
theorem fractionPart_boundary (hd : Boundary d) (text more : List Char) :
    fractionPart (text ++ d :: more) = fractionPart text := by
  rcases text with _ | ⟨a, _ | ⟨c, rest⟩⟩
  · rw [fractionPart, fractionPart]
    all_goals
      rintro x tail ⟨⟩
      try cases hd
  · by_cases h : a = '.'
    · rw [h]
      cases hd <;> rfl
    · rw [fractionPart, fractionPart]
      · rintro x tail ⟨⟩
      · rintro x tail ⟨⟩
        exact h rfl
  · by_cases h : a = '.'
    · simp only [h, List.cons_append, fractionPart, run_boundary hd.continuesNumber]
    · rw [fractionPart, fractionPart]
      all_goals
        rintro x tail ⟨⟩
        exact h rfl

/-- The length of the sign of an exponent. -/
def signLength : List Char → Nat
  | '+' :: _ => 1
  | '-' :: _ => 1
  | _ => 0

theorem signLength_le (text : List Char) : signLength text ≤ text.length := by
  unfold signLength
  split
  · exact Nat.succ_le_succ (Nat.zero_le _)
  · exact Nat.succ_le_succ (Nat.zero_le _)
  · exact Nat.zero_le _

theorem signLength_boundary (hd : Boundary d) (text more : List Char) :
    signLength (text ++ d :: more) = signLength text := by
  cases text with
  | nil => cases hd <;> rfl
  | cons c rest =>
    rw [List.cons_append]
    unfold signLength
    split <;> split <;> simp_all

/-- An exponent has at least one digit. -/
theorem exponentPart_cons (c : Char) (rest : List Char) :
    exponentPart (c :: rest) =
      let digits := run continuesNumber (rest.drop (signLength rest))
      if c = 'e' ∨ c = 'E' then if digits = 0 then 0 else 1 + signLength rest + digits else 0 :=
  rfl

theorem exponentPart_le (text : List Char) : exponentPart text ≤ text.length := by
  cases text with
  | nil => exact Nat.zero_le _
  | cons c rest =>
    have hsign := signLength_le rest
    have hdigits := run_le continuesNumber (rest.drop (signLength rest))
    rw [List.length_drop] at hdigits
    rw [exponentPart_cons, List.length_cons]
    dsimp only
    split
    · split <;> omega
    · exact Nat.zero_le _

/-- An exponent does not go on beyond a boundary. -/
theorem exponentPart_boundary (hd : Boundary d) (text more : List Char) :
    exponentPart (text ++ d :: more) = exponentPart text := by
  cases text with
  | nil => cases hd <;> rfl
  | cons c rest =>
    simp only [List.cons_append, exponentPart_cons, signLength_boundary hd,
      List.drop_append_of_le_length (signLength_le rest), run_boundary hd.continuesNumber]

theorem decimalTail_le (text : List Char) : (decimalTail text).2 ≤ text.length := by
  have hwhole := run_le continuesNumber text
  have hfraction := fractionPart_le (text.drop (run continuesNumber text))
  have hexponent := exponentPart_le (text.drop (run continuesNumber text +
    fractionPart (text.drop (run continuesNumber text))))
  rw [List.length_drop] at hfraction hexponent
  unfold decimalTail
  dsimp only
  split
  · exact hwhole
  · dsimp only
    omega

/-- A decimal number does not go on beyond a boundary. -/
theorem decimalTail_boundary (hd : Boundary d) (text more : List Char) :
    decimalTail (text ++ d :: more) = decimalTail text := by
  have hwhole := run_le continuesNumber text
  have hfraction := fractionPart_le (text.drop (run continuesNumber text))
  rw [List.length_drop] at hfraction
  have hboth : run continuesNumber text + fractionPart (text.drop (run continuesNumber text)) ≤
      text.length := by omega
  simp only [decimalTail, run_boundary hd.continuesNumber, List.drop_append_of_le_length hwhole,
    fractionPart_boundary hd, List.drop_append_of_le_length hboth, exponentPart_boundary hd]

theorem Boundary.continuesBase (hd : Boundary d) (base : Nat) : continuesBase base d = false := by
  unfold LexClass.continuesBase
  cases hd
  all_goals
    split
    · rfl
    · split <;> rfl

theorem numberTail_le (c : Char) (text : List Char) : (numberTail c text).2 ≤ text.length := by
  unfold numberTail
  split
  · next letter rest =>
    split
    · next base hbase =>
      have hle := run_le (continuesBase base) rest
      dsimp only
      split
      · exact Nat.succ_le_succ hle
      · exact decimalTail_le _
    · exact decimalTail_le _
  · exact decimalTail_le _

/-- A number in any base does not go on beyond a boundary. -/
theorem numberTail_boundary (hd : Boundary d) (c : Char) (text more : List Char) :
    numberTail c (text ++ d :: more) = numberTail c text := by
  cases text with
  | nil =>
    have hdecimal := decimalTail_boundary hd [] more
    have hbase : base? d = none := by cases hd <;> rfl
    rw [List.nil_append] at hdecimal ⊢
    simp only [numberTail, hbase, hdecimal]
  | cons letter rest =>
    have hdecimal := decimalTail_boundary hd (letter :: rest) more
    simp only [List.cons_append] at hdecimal ⊢
    simp only [numberTail, hdecimal, run_boundary (hd.continuesBase _)]

theorem specialTail_le (text : List Char) : (specialTail text).1 ≤ text.length := by
  have hle := run_le continuesSpecial text
  unfold specialTail
  dsimp only
  split
  · next rest hrest =>
    have hlt := congrArg List.length hrest
    rw [List.length_drop, List.length_cons] at hlt
    dsimp only
    omega
  · exact hle

/-- A closed special operator is closed before whatever follows. -/
theorem specialTail_append_of_closed (h : specialTail text = (n, true)) (more : List Char) :
    specialTail (text ++ more) = (n, true) := by
  simp only [specialTail] at h ⊢
  split at h
  · next rest hrest =>
    have hlength := congrArg List.length hrest
    rw [List.length_drop, List.length_cons] at hlength
    have hlt : run continuesSpecial text < text.length := by omega
    rw [run_append_of_lt hlt, List.drop_append_of_le_length (run_le _ _), hrest]
    exact h
  · cases h

/-- A closed string is closed before whatever follows. -/
theorem stringTail_append_of_closed (h : stringTail text = (n, true)) (more : List Char) :
    n ≤ text.length ∧ stringTail (text ++ more) = (n, true) := by
  obtain ⟨inner, after, rfl, hinner, rfl⟩ := stringTail_eq_iff.1 h
  refine ⟨?_, stringTail_eq_iff.2 ⟨inner, after ++ more, ?_, hinner, rfl⟩⟩
  · rw [List.length_append, List.length_cons]
    omega
  · rw [List.append_assoc, List.cons_append]

/-- A mark is taken from what is there. -/
theorem mark?_le {rest : List Char} {token : Token} (h : mark? c rest = some (token, n)) :
    n ≤ rest.length := by
  unfold mark? at h
  split at h <;> cases h <;> simp

/-- A character other than the boundary, if it is next, is before it. -/
theorem eq_cons_of_boundary {x : Char} {rest more tail : List Char} (hx : x ≠ d)
    (h : rest ++ d :: more = x :: tail) :
    ∃ others, rest = x :: others ∧ others ++ d :: more = tail := by
  cases rest with
  | nil =>
    obtain ⟨rfl, -⟩ := List.cons.inj h
    exact absurd rfl hx
  | cons c others =>
    obtain ⟨rfl, htail⟩ := List.cons.inj h
    exact ⟨others, rfl, htail⟩

/-- No mark goes on with a boundary. -/
theorem Boundary.continuesMark (hd : Boundary d) :
    '<' ≠ d ∧ '-' ≠ d ∧ '=' ≠ d ∧ '&' ≠ d ∧ '|' ≠ d := by
  cases hd <;> decide

/-- No mark of two characters is made with the boundary. -/
theorem mark?_boundary (hd : Boundary d) (c : Char) (rest more : List Char) :
    mark? c (rest ++ d :: more) = mark? c rest := by
  obtain ⟨hless, hminus, heq, hand, hor⟩ := hd.continuesMark
  -- only the marks that are the start of a longer one depend on what follows
  fun_cases mark? c rest
  case case17 hsuper hleft hlessEq =>
    rw [mark?]
    · intro tail h
      obtain ⟨others, rfl, htail⟩ := eq_cons_of_boundary hless h
      obtain ⟨others, rfl, -⟩ := eq_cons_of_boundary hminus htail
      exact hsuper _ rfl
    · intro tail h
      obtain ⟨others, rfl, -⟩ := eq_cons_of_boundary hminus h
      exact hleft _ rfl
    · intro tail h
      obtain ⟨others, rfl, -⟩ := eq_cons_of_boundary heq h
      exact hlessEq _ rfl
  case case19 hgreater =>
    rw [mark?]
    intro tail h
    obtain ⟨others, rfl, -⟩ := eq_cons_of_boundary heq h
    exact hgreater _ rfl
  case case22 hbang =>
    rw [mark?]
    intro tail h
    obtain ⟨others, rfl, -⟩ := eq_cons_of_boundary heq h
    exact hbang _ rfl
  case case29 =>
    rw [mark?]
    all_goals try assumption
    all_goals
      rintro tail rfl h
      obtain ⟨others, rfl, -⟩ := eq_cons_of_boundary (by assumption) h
      simp_all
  all_goals rfl

/-! ### The longest lexeme -/

/-- A lexeme is taken from what is there. -/
theorem scan_le {rest : List Char} (h : scan c rest = some (cls, n)) : n ≤ rest.length := by
  -- one bound for each case of the scanner
  unfold scan at h
  split at h
  · cases h
    exact run_le _ _
  split at h
  · cases h
    exact run_le _ _
  split at h
  · have hle := wordTail_le rest
    rwa [Option.some.inj h] at hle
  split at h
  · have hle := numberTail_le c rest
    rwa [Option.some.inj h] at hle
  split at h
  · next hpoint =>
    cases h
    have hfraction := fractionPart_le (c :: rest)
    have hexponent := exponentPart_le (rest.drop (fractionPart (c :: rest) - 1))
    rw [List.length_cons] at hfraction
    rw [List.length_drop] at hexponent
    omega
  split at h
  · split at h
    · next hclosed =>
      cases h
      have hle := specialTail_le rest
      rwa [hclosed] at hle
    · cases h
  split at h
  · split at h
    · next hclosed =>
      cases h
      exact (stringTail_append_of_closed hclosed []).1
    · cases h
  · obtain ⟨⟨token, m⟩, hmark, h⟩ := Option.map_eq_some_iff.1 h
    cases h
    exact mark?_le hmark

/-- The longest lexeme stays the longest one when a boundary comes after the text, but a comment
goes on over a quote. -/
theorem scan_boundary (hd : Boundary d) {rest : List Char} (h : scan c rest = some (cls, n))
    (hcomment : cls = comment → d = '\n' ∨ n < rest.length) (more : List Char) :
    scan c (rest ++ d :: more) = some (cls, n) := by
  by_cases hquote : c = '"'
  -- an unclosed string may be closed by what follows, but it is no lexeme
  · subst hquote
    obtain ⟨hclosed, rfl⟩ := scan_quote_iff.1 h
    exact scan_quote_iff.2 ⟨(stringTail_append_of_closed hclosed _).2, rfl⟩
  by_cases hpercent : c = '%'
  · subst hpercent
    obtain ⟨hclosed, rfl⟩ := scan_percent_iff.1 h
    exact scan_percent_iff.2 ⟨specialTail_append_of_closed hclosed _, rfl⟩
  by_cases hhash : c = '#'
  · subst hhash
    have hscan : ∀ text, scan '#' text = some (comment, run (· != '\n') text) := fun _ => rfl
    rw [hscan] at h ⊢
    cases h
    rcases hcomment rfl with rfl | hlt
    · rw [run_boundary rfl]
    · rw [run_append_of_lt hlt]
  have hfraction : fractionPart (c :: (rest ++ d :: more)) = fractionPart (c :: rest) :=
    fractionPart_boundary hd (c :: rest) more
  have hle : fractionPart (c :: rest) - 1 ≤ rest.length :=
    Nat.sub_le_of_le_add (fractionPart_le (c :: rest))
  rw [← h]
  simp only [scan, if_neg hquote, if_neg hpercent, if_neg hhash, hfraction,
    run_boundary hd.isBlank, wordTail_boundary hd, numberTail_boundary hd,
    List.drop_append_of_le_length hle, exponentPart_boundary hd, mark?_boundary hd]

end LexClass

/-! ### Whole texts -/

namespace Scan

/-- The lexemes of a scan and then those of another one. -/
def append (scan more : Scan) : Scan := ⟨scan.lexemes ++ more.lexemes, more.failure⟩

/-- The scan `k` bytes further on. -/
def shift (k : Nat) (scan : Scan) : Scan :=
  ⟨scan.lexemes.map (Lexeme.shift k), scan.failure.map fun e => ⟨e.span.shift k, e.text⟩⟩

/-- A text is cut into the same lexemes wherever it stands. -/
theorem ofChars_add (k offset : Nat) (text : List Char) :
    ofChars (offset + k) text = (ofChars offset text).shift k := by
  -- nothing that the scanner decides depends on the offset
  fun_induction ofChars offset text with
  | case1 =>
    rw [ofChars]
    rfl
  | case2 offset c rest hscan stretch =>
    rw [ofChars, hscan]
    rfl
  | case3 offset c rest n lexeme length hscan ih =>
    rw [ofChars, hscan]
    simp only [if_true]
    rw [Nat.add_right_comm]
    exact ih
  | case4 offset c rest cls n hscan lexeme length hcls hread =>
    rw [ofChars, hscan]
    simp only [if_neg hcls]
    rw [hread]
    rfl
  | case5 offset c rest cls n hscan lexeme length hcls token hread ih =>
    rw [ofChars, hscan]
    simp only [if_neg hcls]
    rw [hread]
    simp only
    rw [Nat.add_right_comm, ih]
    rfl

/-- A line break is a lexeme of its own. -/
theorem ofChars_newline (offset : Nat) (more : List Char) :
    ofChars offset ('\n' :: more) =
      (ofChars (offset + 1) more).cons ⟨.newline, ⟨offset, 1⟩, "\n"⟩ := by
  have hscan : LexClass.scan '\n' more = some (.mark .newline, 0) := rfl
  rw [ofChars, hscan]
  rfl

theorem byteLength_take_add_drop (c : Char) (n : Nat) (rest : List Char) :
    byteLength (c :: rest.take n) + byteLength (rest.drop n) = byteLength (c :: rest) := by
  rw [← byteLength_append, List.cons_append, List.take_append_drop]

/-- A text without failures is cut into the same lexemes before a boundary and any other text.  A
comment at its end is cut so before a line break only. -/
theorem ofChars_boundary {d : Char} (hd : LexClass.Boundary d) (offset : Nat)
    (text more : List Char) (h : (ofChars offset text).failure = none)
    (hlast : d = '\n' ∨ ∀ t ∈ (ofChars offset text).lexemes.getLast?, t.token ≠ .comment) :
    ofChars offset (text ++ d :: more) =
      (ofChars offset text).append (ofChars (offset + byteLength text) (d :: more)) := by
  fun_induction ofChars offset text with
  | case1 => rfl
  | case2 => cases h
  | case3 offset c rest n lexeme length hscan ih =>
    have hle := LexClass.scan_le hscan
    rw [List.cons_append, ofChars, LexClass.scan_boundary hd hscan (by simp)]
    simp only [if_true, List.take_append_of_le_length hle, List.drop_append_of_le_length hle]
    rw [ih h hlast, Nat.add_assoc, byteLength_take_add_drop]
  | case4 => cases h
  | case5 offset c rest cls n hscan lexeme length hcls token hread ih =>
    have hle := LexClass.scan_le hscan
    have hcomment : cls = .comment → d = '\n' ∨ n < rest.length := by
      rintro rfl
      refine hlast.imp_right fun hlast => ?_
      cases hread
      -- a comment up to the end of the text would be the last lexeme
      refine Nat.lt_of_le_of_ne hle fun hend => ?_
      rw [hend, List.drop_length, ofChars] at hlast
      exact hlast _ rfl rfl
    have hothers : d = '\n' ∨
        ∀ t ∈ (ofChars (offset + length) (rest.drop n)).lexemes.getLast?, t.token ≠ .comment := by
      refine hlast.imp_right fun hlast t ht => hlast t ?_
      rw [cons, List.getLast?_cons, Option.mem_def.1 ht]
      rfl
    rw [List.cons_append, ofChars, LexClass.scan_boundary hd hscan hcomment]
    simp only [if_neg hcls, List.take_append_of_le_length hle, List.drop_append_of_le_length hle]
    rw [hread]
    simp only
    rw [ih h hothers, Nat.add_assoc, byteLength_take_add_drop]
    rfl

end Scan

end PipeLang
