import PipeLang.Parser.Grammar

/-!
# Progress

Every part of the parser that reads an expression leaves fewer lexemes than it was given, and the
others leave no more (`progress`).  Hence the recursion is bounded by the number of lexemes: with
four units of fuel for each lexeme and four more, a list of statements never runs out of fuel
(`statements_ne_outOfFuel`).
-/

namespace PipeLang.Parser

/-! ### Parameters -/

mutual

theorem length_lt_of_paramNames {ts rest : List Lexeme} {names : List String}
    (h : paramNames ts = .ok (names, rest)) : rest.length < ts.length := by
  cases ts with
  | nil => simp [paramNames] at h
  | cons t tail =>
    rw [List.length_cons]
    unfold paramNames at h
    split at h
    · have := length_lt_of_paramNames h
      omega
    · cases h
      omega
    · obtain ⟨⟨others, after⟩, ha, h⟩ := Outcome.bind_eq_ok_iff.1 h
      cases h
      have := length_lt_of_afterParam ha
      omega
    · obtain ⟨⟨others, after⟩, ha, h⟩ := Outcome.bind_eq_ok_iff.1 h
      cases h
      have := length_lt_of_afterParam ha
      omega
    · cases h

theorem length_lt_of_afterParam {ts rest : List Lexeme} {names : List String}
    (h : afterParam ts = .ok (names, rest)) : rest.length < ts.length := by
  cases ts with
  | nil => simp [afterParam] at h
  | cons t tail =>
    rw [List.length_cons]
    unfold afterParam at h
    split at h
    · have := length_lt_of_afterParam h
      omega
    · cases h
      omega
    · have := length_lt_of_paramNames h
      omega
    · cases h

end

mutual

theorem paramNames_ne_outOfFuel (ts : List Lexeme) : paramNames ts ≠ .outOfFuel := by
  cases ts with
  | nil => simp [paramNames]
  | cons t tail =>
    unfold paramNames
    split
    · exact paramNames_ne_outOfFuel tail
    · simp
    · have := afterParam_ne_outOfFuel tail
      simp [Outcome.bind_eq_outOfFuel_iff, this]
    · have := afterParam_ne_outOfFuel tail
      simp [Outcome.bind_eq_outOfFuel_iff, this]
    · simp

theorem afterParam_ne_outOfFuel (ts : List Lexeme) : afterParam ts ≠ .outOfFuel := by
  cases ts with
  | nil => simp [afterParam]
  | cons t tail =>
    unfold afterParam
    split
    · exact afterParam_ne_outOfFuel tail
    · simp
    · exact paramNames_ne_outOfFuel tail
    · simp

end

/-! ### Expressions -/

/-- What each part of the parser leaves, at one amount of fuel. -/
structure Progress (fuel : Nat) : Prop where
  expr : ∀ {free least ts e rest},
    expr fuel free least ts = .ok (e, rest) → rest.length < ts.length
  infixTail : ∀ {free least lhs ts e rest},
    infixTail fuel free least lhs ts = .ok (e, rest) → rest.length ≤ ts.length
  operand : ∀ {free ts e rest}, operand fuel free ts = .ok (e, rest) → rest.length < ts.length
  postfixTail : ∀ {free lhs ts e rest},
    postfixTail fuel free lhs ts = .ok (e, rest) → rest.length ≤ ts.length
  atom : ∀ {free ts e rest}, atom fuel free ts = .ok (e, rest) → rest.length < ts.length
  signed : ∀ {free op s ts e rest},
    signed fuel free op s ts = .ok (e, rest) → rest.length < ts.length
  lambda : ∀ {free s ts e rest}, lambda fuel free s ts = .ok (e, rest) → rest.length < ts.length
  conditional : ∀ {free s ts e rest},
    conditional fuel free s ts = .ok (e, rest) → rest.length < ts.length
  exprs : ∀ {close ts es s rest},
    exprs fuel close ts = .ok (es, s, rest) → rest.length < ts.length
  recordFields : ∀ {ts fs s rest},
    recordFields fuel ts = .ok (fs, s, rest) → rest.length < ts.length
  statements : ∀ {close ts es rest},
    statements fuel close ts = .ok (es, rest) → rest.length ≤ ts.length

/-- Every part of the parser makes progress, whatever its fuel. -/
theorem progress (fuel : Nat) : Progress fuel := by
  induction fuel with
  | zero =>
    constructor <;> intros <;> rename_i h <;>
      simp [expr, infixTail, operand, postfixTail, atom, signed, lambda, conditional, exprs,
        recordFields, statements] at h
  | succ fuel ih =>
    constructor
    case expr =>
      intro free least ts e rest h
      rw [expr] at h
      obtain ⟨⟨lhs, mid⟩, ho, h⟩ := Outcome.bind_eq_ok_iff.1 h
      dsimp only at h
      have := ih.operand ho
      have := ih.infixTail h
      omega
    case infixTail =>
      intro free least lhs ts e rest h
      have hle := length_ahead_le free ts
      rw [infixTail] at h
      split at h
      · cases h
        exact Nat.zero_le _
      · next t tail ha =>
        rw [ha] at hle
        split at h
        · cases h
          exact hle
        · split at h
          · cases h
            exact hle
          · obtain ⟨⟨rhs, mid⟩, he, h⟩ := Outcome.bind_eq_ok_iff.1 h
            dsimp only at h
            have := ih.expr he
            have := ih.infixTail h
            have := length_skipNewlines_le tail
            rw [List.length_cons] at hle
            omega
    case operand =>
      intro free ts e rest h
      rw [operand] at h
      obtain ⟨⟨lhs, mid⟩, ha, h⟩ := Outcome.bind_eq_ok_iff.1 h
      dsimp only at h
      have := ih.atom ha
      have := ih.postfixTail h
      omega
    case postfixTail =>
      intro free lhs ts e rest h
      cases ts with
      | nil =>
        rw [postfixTail] at h
        cases h
        exact Nat.le_refl _
      | cons t tail =>
        rw [List.length_cons]
        rw [postfixTail] at h
        split at h
        · obtain ⟨⟨args, close, mid⟩, he, h⟩ := Outcome.bind_eq_ok_iff.1 h
          dsimp only at h
          have := ih.exprs he
          have := ih.postfixTail h
          omega
        · obtain ⟨⟨name, s, mid⟩, he, h⟩ := Outcome.bind_eq_ok_iff.1 h
          dsimp only at h
          have := length_lt_of_expectName he
          have := ih.postfixTail h
          omega
        · cases h
          exact Nat.le_refl _
    case atom =>
      intro free ts e rest h
      rw [atom] at h
      obtain ⟨⟨t, tail⟩, hn, h⟩ := Outcome.bind_eq_ok_iff.1 h
      dsimp only at h
      have hlt := length_lt_of_next hn
      split at h
      case h_4 => exact Nat.lt_trans (ih.signed h) hlt
      case h_5 =>
        obtain ⟨⟨inner, mid⟩, he, h⟩ := Outcome.bind_eq_ok_iff.1 h
        dsimp only at h
        obtain ⟨⟨close, after⟩, hc, h⟩ := Outcome.bind_eq_ok_iff.1 h
        dsimp only at h
        have := ih.expr he
        have := length_lt_of_expect hc
        cases h
        omega
      case h_6 =>
        obtain ⟨⟨items, close, after⟩, he, h⟩ := Outcome.bind_eq_ok_iff.1 h
        dsimp only at h
        have := ih.exprs he
        cases h
        omega
      case h_7 =>
        split at h
        · obtain ⟨⟨fields, close, after⟩, he, h⟩ := Outcome.bind_eq_ok_iff.1 h
          dsimp only at h
          have := ih.recordFields he
          cases h
          omega
        · obtain ⟨⟨stmts, mid⟩, he, h⟩ := Outcome.bind_eq_ok_iff.1 h
          dsimp only at h
          obtain ⟨⟨close, after⟩, hc, h⟩ := Outcome.bind_eq_ok_iff.1 h
          dsimp only at h
          have := ih.statements he
          have := length_lt_of_expect hc
          cases h
          omega
      case h_8 => exact Nat.lt_trans (ih.lambda h) hlt
      case h_9 => exact Nat.lt_trans (ih.conditional h) hlt
      all_goals
        cases h
        try exact hlt
    case signed =>
      intro free op s ts e rest h
      rw [signed] at h
      obtain ⟨⟨operand, mid⟩, he, h⟩ := Outcome.bind_eq_ok_iff.1 h
      dsimp only at h
      cases h
      exact ih.expr he
    case lambda =>
      intro free s ts e rest h
      rw [lambda] at h
      obtain ⟨⟨_, mid⟩, hp, h⟩ := Outcome.bind_eq_ok_iff.1 h
      dsimp only at h
      obtain ⟨⟨params, after⟩, hn, h⟩ := Outcome.bind_eq_ok_iff.1 h
      dsimp only at h
      obtain ⟨⟨body, tail⟩, he, h⟩ := Outcome.bind_eq_ok_iff.1 h
      dsimp only at h
      have := length_lt_of_expect hp
      have := length_lt_of_paramNames hn
      have := ih.expr he
      have := length_skipNewlines_le after
      cases h
      omega
    case conditional =>
      intro free s ts e rest h
      rw [conditional] at h
      obtain ⟨⟨_, mid⟩, hp, h⟩ := Outcome.bind_eq_ok_iff.1 h
      dsimp only at h
      obtain ⟨⟨cond, afterCond⟩, he, h⟩ := Outcome.bind_eq_ok_iff.1 h
      dsimp only at h
      obtain ⟨⟨_, afterParen⟩, hc, h⟩ := Outcome.bind_eq_ok_iff.1 h
      dsimp only at h
      obtain ⟨⟨yes, afterYes⟩, hy, h⟩ := Outcome.bind_eq_ok_iff.1 h
      dsimp only at h
      have := length_lt_of_expect hp
      have := ih.expr he
      have := length_lt_of_expect hc
      have := ih.expr hy
      have := length_skipNewlines_le afterParen
      have hle := length_skipNewlines_le afterYes
      split at h
      · next t tail ht =>
        rw [ht, List.length_cons] at hle
        split at h
        · obtain ⟨⟨no, afterNo⟩, hn, h⟩ := Outcome.bind_eq_ok_iff.1 h
          dsimp only at h
          have := ih.expr hn
          have := length_skipNewlines_le tail
          cases h
          omega
        · cases h
          omega
      · cases h
        omega
    case exprs =>
      intro close ts es s rest h
      have hle := length_skipNewlines_le ts
      rw [exprs] at h
      split at h
      · cases h
      · next t tail ht =>
        rw [ht, List.length_cons] at hle
        split at h
        · cases h
          omega
        · obtain ⟨⟨first, mid⟩, he, h⟩ := Outcome.bind_eq_ok_iff.1 h
          dsimp only at h
          obtain ⟨⟨sep, after⟩, hn, h⟩ := Outcome.bind_eq_ok_iff.1 h
          dsimp only at h
          have hfirst := ih.expr he
          have := length_lt_of_next hn
          rw [List.length_cons] at hfirst
          split at h
          · cases h
            omega
          · split at h
            · obtain ⟨⟨others, stop, last⟩, ho, h⟩ := Outcome.bind_eq_ok_iff.1 h
              dsimp only at h
              have := ih.exprs ho
              cases h
              omega
            · cases h
    case recordFields =>
      intro ts fs s rest h
      have hle := length_skipNewlines_le ts
      rw [recordFields] at h
      split at h
      · cases h
      · next t tail ht =>
        rw [ht, List.length_cons] at hle
        split at h
        · cases h
          omega
        · obtain ⟨⟨name, _, afterName⟩, hm, h⟩ := Outcome.bind_eq_ok_iff.1 h
          dsimp only at h
          obtain ⟨⟨_, afterColon⟩, hc, h⟩ := Outcome.bind_eq_ok_iff.1 h
          dsimp only at h
          obtain ⟨⟨first, mid⟩, he, h⟩ := Outcome.bind_eq_ok_iff.1 h
          dsimp only at h
          obtain ⟨⟨sep, after⟩, hn, h⟩ := Outcome.bind_eq_ok_iff.1 h
          dsimp only at h
          have hname := length_lt_of_expectName hm
          rw [List.length_cons] at hname
          have := length_lt_of_expect hc
          have := ih.expr he
          have := length_lt_of_next hn
          split at h
          · cases h
            omega
          · split at h
            · obtain ⟨⟨others, stop, last⟩, ho, h⟩ := Outcome.bind_eq_ok_iff.1 h
              dsimp only at h
              have := ih.recordFields ho
              cases h
              omega
            · cases h
    case statements =>
      intro close ts es rest h
      have hle := length_skipSeparators_le ts
      rw [statements] at h
      split at h
      · cases h
        exact Nat.zero_le _
      · next t tail ht =>
        rw [ht] at hle
        split at h
        · cases h
          exact hle
        · obtain ⟨⟨first, mid⟩, he, h⟩ := Outcome.bind_eq_ok_iff.1 h
          dsimp only at h
          have := ih.expr he
          split at h
          · cases h
            exact Nat.zero_le _
          · split at h
            · obtain ⟨⟨others, last⟩, ho, h⟩ := Outcome.bind_eq_ok_iff.1 h
              dsimp only at h
              have := ih.statements ho
              cases h
              omega
            · cases h

/-! ### Enough fuel -/

/-- How much fuel each part of the parser needs for a number of lexemes. -/
structure Sufficient (fuel : Nat) : Prop where
  expr : ∀ {free least ts}, 4 * ts.length + 3 ≤ fuel → expr fuel free least ts ≠ .outOfFuel
  infixTail : ∀ {free least lhs ts},
    4 * ts.length + 1 ≤ fuel → infixTail fuel free least lhs ts ≠ .outOfFuel
  operand : ∀ {free ts}, 4 * ts.length + 2 ≤ fuel → operand fuel free ts ≠ .outOfFuel
  postfixTail : ∀ {free lhs ts},
    4 * ts.length + 1 ≤ fuel → postfixTail fuel free lhs ts ≠ .outOfFuel
  atom : ∀ {free ts}, 4 * ts.length + 1 ≤ fuel → atom fuel free ts ≠ .outOfFuel
  signed : ∀ {free op s ts}, 4 * ts.length + 4 ≤ fuel → signed fuel free op s ts ≠ .outOfFuel
  lambda : ∀ {free s ts}, 4 * ts.length + 4 ≤ fuel → lambda fuel free s ts ≠ .outOfFuel
  conditional : ∀ {free s ts},
    4 * ts.length + 4 ≤ fuel → conditional fuel free s ts ≠ .outOfFuel
  exprs : ∀ {close ts}, 4 * ts.length + 4 ≤ fuel → exprs fuel close ts ≠ .outOfFuel
  recordFields : ∀ {ts}, 4 * ts.length + 4 ≤ fuel → recordFields fuel ts ≠ .outOfFuel
  statements : ∀ {close ts}, 4 * ts.length + 4 ≤ fuel → statements fuel close ts ≠ .outOfFuel

/-- Four units for every lexeme and at most four more suffice. -/
theorem sufficient (fuel : Nat) : Sufficient fuel := by
  induction fuel with
  | zero =>
    constructor <;> intros <;> omega
  | succ fuel ih =>
    constructor
    case expr =>
      intro free least ts hf h
      rw [expr] at h
      rcases Outcome.bind_eq_outOfFuel_iff.1 h with h | ⟨⟨lhs, mid⟩, ho, h⟩
      · exact ih.operand (by omega) h
      · have := (progress fuel).operand ho
        exact ih.infixTail (by omega) h
    case infixTail =>
      intro free least lhs ts hf h
      have hle := length_ahead_le free ts
      rw [infixTail] at h
      split at h
      · cases h
      · next t tail ha =>
        rw [ha, List.length_cons] at hle
        split at h
        · cases h
        · split at h
          · cases h
          · have := length_skipNewlines_le tail
            rcases Outcome.bind_eq_outOfFuel_iff.1 h with h | ⟨⟨rhs, mid⟩, he, h⟩
            · exact ih.expr (by omega) h
            · have := (progress fuel).expr he
              exact ih.infixTail (by omega) h
    case operand =>
      intro free ts hf h
      rw [operand] at h
      rcases Outcome.bind_eq_outOfFuel_iff.1 h with h | ⟨⟨lhs, mid⟩, ha, h⟩
      · exact ih.atom (by omega) h
      · have := (progress fuel).atom ha
        exact ih.postfixTail (by omega) h
    case postfixTail =>
      intro free lhs ts hf h
      cases ts with
      | nil =>
        rw [postfixTail] at h
        cases h
      | cons t tail =>
        rw [List.length_cons] at hf
        rw [postfixTail] at h
        split at h
        · rcases Outcome.bind_eq_outOfFuel_iff.1 h with h | ⟨⟨args, close, mid⟩, he, h⟩
          · exact ih.exprs (by omega) h
          · have := (progress fuel).exprs he
            exact ih.postfixTail (by omega) h
        · rcases Outcome.bind_eq_outOfFuel_iff.1 h with h | ⟨⟨name, s, mid⟩, he, h⟩
          · exact expectName_ne_outOfFuel _ _ _ h
          · have := length_lt_of_expectName he
            exact ih.postfixTail (by omega) h
        · cases h
    case atom =>
      intro free ts hf h
      rw [atom] at h
      rcases Outcome.bind_eq_outOfFuel_iff.1 h with h | ⟨⟨t, tail⟩, hn, h⟩
      · exact next_ne_outOfFuel _ _ h
      have hlt := length_lt_of_next hn
      simp only at h
      split at h
      case h_4 => exact ih.signed (by omega) h
      case h_5 =>
        rcases Outcome.bind_eq_outOfFuel_iff.1 h with h | ⟨⟨inner, mid⟩, he, h⟩
        · exact ih.expr (by omega) h
        · rcases Outcome.bind_eq_outOfFuel_iff.1 h with h | ⟨_, _, h⟩
          · exact expect_ne_outOfFuel _ _ _ _ h
          · cases h
      case h_6 =>
        rcases Outcome.bind_eq_outOfFuel_iff.1 h with h | ⟨_, _, h⟩
        · exact ih.exprs (by omega) h
        · cases h
      case h_7 =>
        split at h
        · rcases Outcome.bind_eq_outOfFuel_iff.1 h with h | ⟨_, _, h⟩
          · exact ih.recordFields (by omega) h
          · cases h
        · rcases Outcome.bind_eq_outOfFuel_iff.1 h with h | ⟨⟨stmts, mid⟩, he, h⟩
          · exact ih.statements (by omega) h
          · rcases Outcome.bind_eq_outOfFuel_iff.1 h with h | ⟨_, _, h⟩
            · exact expect_ne_outOfFuel _ _ _ _ h
            · cases h
      case h_8 => exact ih.lambda (by omega) h
      case h_9 => exact ih.conditional (by omega) h
      all_goals cases h
    case signed =>
      intro free op s ts hf h
      rw [signed] at h
      rcases Outcome.bind_eq_outOfFuel_iff.1 h with h | ⟨_, _, h⟩
      · exact ih.expr (by omega) h
      · cases h
    case lambda =>
      intro free s ts hf h
      rw [lambda] at h
      rcases Outcome.bind_eq_outOfFuel_iff.1 h with h | ⟨⟨_, mid⟩, hp, h⟩
      · exact expect_ne_outOfFuel _ _ _ _ h
      rcases Outcome.bind_eq_outOfFuel_iff.1 h with h | ⟨⟨params, after⟩, hn, h⟩
      · exact paramNames_ne_outOfFuel _ h
      have := length_lt_of_expect hp
      have := length_lt_of_paramNames hn
      have := length_skipNewlines_le after
      rcases Outcome.bind_eq_outOfFuel_iff.1 h with h | ⟨_, _, h⟩
      · exact ih.expr (by omega) h
      · cases h
    case conditional =>
      intro free s ts hf h
      rw [conditional] at h
      rcases Outcome.bind_eq_outOfFuel_iff.1 h with h | ⟨⟨_, mid⟩, hp, h⟩
      · exact expect_ne_outOfFuel _ _ _ _ h
      have := length_lt_of_expect hp
      rcases Outcome.bind_eq_outOfFuel_iff.1 h with h | ⟨⟨cond, afterCond⟩, he, h⟩
      · exact ih.expr (by omega) h
      have := (progress fuel).expr he
      rcases Outcome.bind_eq_outOfFuel_iff.1 h with h | ⟨⟨_, afterParen⟩, hc, h⟩
      · exact expect_ne_outOfFuel _ _ _ _ h
      have := length_lt_of_expect hc
      have := length_skipNewlines_le afterParen
      rcases Outcome.bind_eq_outOfFuel_iff.1 h with h | ⟨⟨yes, afterYes⟩, hy, h⟩
      · exact ih.expr (by omega) h
      have := (progress fuel).expr hy
      have hle := length_skipNewlines_le afterYes
      simp only at h
      split at h
      · next t tail ht =>
        rw [ht, List.length_cons] at hle
        split at h
        · have := length_skipNewlines_le tail
          rcases Outcome.bind_eq_outOfFuel_iff.1 h with h | ⟨_, _, h⟩
          · exact ih.expr (by omega) h
          · cases h
        · cases h
      · cases h
    case exprs =>
      intro close ts hf h
      have hle := length_skipNewlines_le ts
      rw [exprs] at h
      split at h
      · cases h
      · next t tail ht =>
        rw [ht] at hle
        split at h
        · cases h
        · rcases Outcome.bind_eq_outOfFuel_iff.1 h with h | ⟨⟨first, mid⟩, he, h⟩
          · exact ih.expr (by omega) h
          have := (progress fuel).expr he
          rcases Outcome.bind_eq_outOfFuel_iff.1 h with h | ⟨⟨sep, after⟩, hn, h⟩
          · exact next_ne_outOfFuel _ _ h
          have := length_lt_of_next hn
          simp only at h
          split at h
          · cases h
          · split at h
            · rcases Outcome.bind_eq_outOfFuel_iff.1 h with h | ⟨_, _, h⟩
              · exact ih.exprs (by omega) h
              · cases h
            · cases h
    case recordFields =>
      intro ts hf h
      have hle := length_skipNewlines_le ts
      rw [recordFields] at h
      split at h
      · cases h
      · next t tail ht =>
        rw [ht] at hle
        split at h
        · cases h
        · rcases Outcome.bind_eq_outOfFuel_iff.1 h with h | ⟨⟨name, _, afterName⟩, hm, h⟩
          · exact expectName_ne_outOfFuel _ _ _ h
          have := length_lt_of_expectName hm
          rcases Outcome.bind_eq_outOfFuel_iff.1 h with h | ⟨⟨_, afterColon⟩, hc, h⟩
          · exact expect_ne_outOfFuel _ _ _ _ h
          have := length_lt_of_expect hc
          rcases Outcome.bind_eq_outOfFuel_iff.1 h with h | ⟨⟨first, mid⟩, he, h⟩
          · exact ih.expr (by omega) h
          have := (progress fuel).expr he
          rcases Outcome.bind_eq_outOfFuel_iff.1 h with h | ⟨⟨sep, after⟩, hn, h⟩
          · exact next_ne_outOfFuel _ _ h
          have := length_lt_of_next hn
          simp only at h
          split at h
          · cases h
          · split at h
            · rcases Outcome.bind_eq_outOfFuel_iff.1 h with h | ⟨_, _, h⟩
              · exact ih.recordFields (by omega) h
              · cases h
            · cases h
    case statements =>
      intro close ts hf h
      have hle := length_skipSeparators_le ts
      rw [statements] at h
      split at h
      · cases h
      · next t tail ht =>
        rw [ht] at hle
        split at h
        · cases h
        · rcases Outcome.bind_eq_outOfFuel_iff.1 h with h | ⟨⟨first, mid⟩, he, h⟩
          · exact ih.expr (by omega) h
          have := (progress fuel).expr he
          simp only at h
          split at h
          · cases h
          · split at h
            · rcases Outcome.bind_eq_outOfFuel_iff.1 h with h | ⟨_, _, h⟩
              · exact ih.statements (by omega) h
              · cases h
            · cases h

/-- Statements never run out of the fuel that their number of lexemes allows for. -/
theorem statements_ne_outOfFuel {fuel : Nat} {close : Option Token} {ts : List Lexeme}
    (h : 4 * ts.length + 4 ≤ fuel) : statements fuel close ts ≠ .outOfFuel :=
  (sufficient fuel).statements h

end PipeLang.Parser
