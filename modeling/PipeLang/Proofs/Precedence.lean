import PipeLang.Proofs.Parsing
import PipeLang.Token.Spelling

/-!
# The precedence table

Infix operators stand on seven levels, from assignment, the loosest, to the operators between
percent signs.  `Precedence.tree` reads a sequence of atoms with operators between them from the
outside in: the root is the loosest operator, the last one of its level, or the first one if the
level is assignment, and the sequences on both sides of it are read the same way.

The parser reads the same sequence from left to right with a power on either side of an operator
(`parse_follows_table`).  What it has read so far is always the tree of a whole sequence: the next
operator binds no tighter than any operator before it, so it becomes the root
(`Precedence.tree_append_cons`), and its right operand reaches to the next operator that binds too
loosely.
-/

namespace PipeLang

/-! ### Atoms and operators -/

namespace Token

/-- How tightly an infix operator binds; zero for the other tokens. -/
def level : Token → Nat
  | leftArrow | superArrow => 1
  | orOr => 2
  | andAnd => 3
  | eqEq | bangEq | less | lessEq | greater | greaterEq => 4
  | plus | minus => 5
  | star | slash => 6
  | special _ => 7
  | _ => 0

/-- Whether the token is an infix operator. -/
def isInfix (t : Token) : Bool := t.level != 0

/-- Whether the token is an operand by itself. -/
def isAtom : Token → Bool
  | int _ | float _ | str _ | trueWord | falseWord | nullWord | ident _ | dot => true
  | _ => false

end Token

namespace Lexeme

/-- The tree of an atom. -/
def leaf (t : Lexeme) : Expr :=
  match t.token with
  | .int n => .lit (.int n) t.span
  | .float x => .lit (.float x) t.span
  | .str s => .lit (.str s) t.span
  | .trueWord => .lit (.bool true) t.span
  | .falseWord => .lit (.bool false) t.span
  | .nullWord => .lit .null t.span
  | .ident name => .sym name t.span
  | _ => .sym placeholder t.span

/-- The tree of an operator between two operands: an assignment of the right one to the left one,
or a call on both. -/
def node (t : Lexeme) (lhs rhs : Expr) : Expr :=
  match t.token with
  | .leftArrow => .assign lhs rhs .inner (lhs.span.join rhs.span)
  | .superArrow => .assign lhs rhs .outer (lhs.span.join rhs.span)
  | token => .call (.sym token.spelling t.span) [lhs, rhs] (lhs.span.join rhs.span)

end Lexeme

namespace Precedence

/-! ### The tree of a sequence -/

/-- Operators, each with the atom that follows it. -/
abbrev Sequence : Type := List (Lexeme × Lexeme)

/-- The levels of the operators. -/
def levels (rest : Sequence) : List Nat := rest.map fun p => p.1.token.level

/-- The place of the root: the last operator of the loosest level, or the first one if that is the
level of assignment. -/
def rootIndex (levels : List Nat) : Nat :=
  let loosest := levels.min?.getD 0
  if loosest = 1 then levels.idxOf loosest
  else levels.length - 1 - levels.reverse.idxOf loosest

/-- The tree of an atom and the operators after it, by the table. -/
def tree (first : Lexeme) (rest : Sequence) : Expr :=
  match h : rest[rootIndex (levels rest)]? with
  | none => first.leaf
  | some (op, atom) =>
    op.node (tree first (rest.take (rootIndex (levels rest))))
      (tree atom (rest.drop (rootIndex (levels rest) + 1)))
termination_by rest.length
decreasing_by
  all_goals
    obtain ⟨hlt, -⟩ := List.getElem?_eq_some_iff.1 h
    simp only [List.length_take, List.length_drop]
    omega

/-- The lexemes of operators, each with the atom that follows it. -/
def lexemes (rest : Sequence) : List Lexeme := rest.flatMap fun p => [p.1, p.2]

variable {first op atom : Lexeme} {before after rest tail : Sequence} {least : Nat}

@[simp] theorem tree_nil (first : Lexeme) : tree first [] = first.leaf := by
  rw [tree]
  rfl

/-- Where the root is, given by the operators on both sides. -/
theorem rootIndex_append_cons {l : Nat} {xs ys : List Nat} (hxs : ∀ x ∈ xs, l ≤ x)
    (hys : ∀ y ∈ ys, l ≤ y) (hroot : if l = 1 then l ∉ xs else l ∉ ys) :
    rootIndex (xs ++ l :: ys) = xs.length := by
  have hmin : (xs ++ l :: ys).min? = some l := by
    refine List.min?_eq_some_iff.2 ⟨by simp, fun n hn => ?_⟩
    rcases List.mem_append.1 hn with h | h
    · exact hxs n h
    · rcases List.mem_cons.1 h with rfl | h
      · exact Nat.le_refl _
      · exact hys n h
  rw [rootIndex, hmin, Option.getD_some]
  split at hroot
  · next hl =>
    rw [if_pos hl, List.idxOf_append, if_neg hroot, List.idxOf_cons_self, Nat.zero_add]
  · next hl =>
    have hrev : (xs ++ l :: ys).reverse = ys.reverse ++ l :: xs.reverse := by simp
    rw [if_neg hl, hrev, List.idxOf_append, if_neg (by simpa using hroot), List.idxOf_cons_self]
    simp only [List.length_append, List.length_cons, List.length_reverse]
    omega

/-- An operator that is no tighter than any other is the root if no operator after it is as loose,
or, for an assignment, no operator before it. -/
theorem tree_append_cons (hbefore : ∀ p ∈ before, op.token.level ≤ p.1.token.level)
    (hafter : ∀ p ∈ after, op.token.level ≤ p.1.token.level)
    (hroot : if op.token.level = 1 then ∀ p ∈ before, p.1.token.level ≠ 1
      else ∀ p ∈ after, p.1.token.level ≠ op.token.level) :
    tree first (before ++ (op, atom) :: after) = op.node (tree first before) (tree atom after) := by
  -- no operator on either side binds less tightly, so the root is here
  have hindex : rootIndex (levels (before ++ (op, atom) :: after)) = before.length := by
    have h : rootIndex (levels before ++ op.token.level :: levels after) =
        (levels before).length := by
      refine rootIndex_append_cons (List.forall_mem_map.2 hbefore) (List.forall_mem_map.2 hafter) ?_
      split at hroot
      · next hl => simpa [levels, hl] using hroot
      · next hl => simpa [levels, hl] using hroot
    simpa [levels] using h
  have hget : (before ++ (op, atom) :: after)[rootIndex (levels (before ++ (op, atom) :: after))]? =
      some (op, atom) := by simp [hindex]
  rw [tree]
  split
  · next h => rw [hget] at h; cases h
  · next h =>
    rw [hget] at h
    cases h
    simp [hindex]

/-- Of a single operator the tree is that operator with both atoms. -/
theorem tree_singleton (first op atom : Lexeme) :
    tree first [(op, atom)] = op.node first.leaf atom.leaf := by
  have hroot := @tree_append_cons first op atom [] [] (by simp) (by simp) (by simp)
  rwa [List.nil_append, tree_nil, tree_nil] at hroot

/-! ### Tokens in the parser -/

/-- The powers of an infix operator, by its level. -/
theorem exists_ofToken? {t : Lexeme} (h : t.token.isInfix) :
    ∃ op, InfixOp.ofToken? t.token = some op ∧ op.left = t.token.level ∧
      op.right = (if t.token.level = 1 then 1 else t.token.level + 1) ∧
      ∀ lhs rhs, op.apply t.span lhs rhs = t.node lhs rhs := by
  obtain ⟨token, span, text⟩ := t
  cases token <;> first | exact ⟨_, rfl, rfl, rfl, fun _ _ => rfl⟩ | cases h

/-- Operators and atoms take turns. -/
def Alternates (rest : Sequence) : Prop := ∀ p ∈ rest, p.1.token.isInfix ∧ p.2.token.isAtom

theorem head?_lexemes (rest : Sequence) : (lexemes rest).head? = rest.head?.map Prod.fst := by
  cases rest <;> rfl

/-- An operator is no newline, so it is ahead wherever it is next. -/
theorem ne_newline_of_isInfix {t : Token} (h : t.isInfix) : t ≠ .newline := by
  rintro rfl
  cases h

theorem ne_newline_of_isAtom {t : Token} (h : t.isAtom) : t ≠ .newline := by
  rintro rfl
  cases h

theorem ne_semicolon_of_isAtom {t : Token} (h : t.isAtom) : t ≠ .semicolon := by
  rintro rfl
  cases h

/-- Neither arguments nor a field nor a line break start with an operator. -/
theorem isInfix_of_mem_head? (h : Alternates rest) :
    ∀ t ∈ (lexemes rest).head?, t.token.isInfix := by
  intro t ht
  rw [head?_lexemes] at ht
  obtain ⟨p, hp, rfl⟩ := Option.map_eq_some_iff.1 ht
  exact (h p (List.mem_of_mem_head? hp)).1

end Precedence

namespace Parser

open Precedence

variable {free : Bool} {least : Nat} {first : Lexeme} {before after rest tail : Sequence}

/-- In a sequence the next lexeme is ahead, within brackets and outside. -/
theorem ahead_lexemes (free : Bool) (h : Alternates rest) :
    ahead free (lexemes rest) = lexemes rest :=
  ahead_eq_self free fun t ht => ne_newline_of_isInfix (isInfix_of_mem_head? h t ht)

/-- An atom is read as its leaf. -/
theorem givesAtom_leaf {ts : List Lexeme} (h : first.token.isAtom) :
    GivesAtom free (first :: ts) (.ok (first.leaf, ts)) := by
  have hahead : ahead free (first :: ts) = first :: ts := ahead_cons free (ne_newline_of_isAtom h)
  obtain ⟨token, span, text⟩ := first
  cases token <;>
    first
    | exact givesAtom_literal hahead rfl
    | exact givesAtom_symbol hahead rfl
    | cases h

/-- No call or field follows an atom of a sequence, so it is a whole operand. -/
theorem givesOperand_leaf (h : first.token.isAtom) (hrest : Alternates rest) :
    GivesOperand free (first :: lexemes rest) (.ok (first.leaf, lexemes rest)) := by
  refine givesOperand (givesAtom_leaf h) (givesPostfix_stop fun t ht => ?_)
  have hoperator := isInfix_of_mem_head? hrest t ht
  constructor <;> intro heq <;> rw [heq] at hoperator <;> cases hoperator

/-- An atom and these operators are read as their tree by whoever asks for no more than their
levels, if what follows binds more loosely. -/
def ReadsTree (free : Bool) (rest : Sequence) : Prop :=
  ∀ {first least tail}, first.token.isAtom → (∀ p ∈ rest, least ≤ p.1.token.level) →
    Alternates tail → (∀ p ∈ tail.head?, p.1.token.level < least) →
    GivesExpr free least (first :: lexemes (rest ++ tail)) (.ok (tree first rest, lexemes tail))

/-- A list up to the first element without a property, and from there on. -/
theorem exists_split {α : Type} (p : α → Bool) (l : List α) :
    ∃ xs ys, l = xs ++ ys ∧ (∀ x ∈ xs, p x) ∧ ∀ y ∈ ys.head?, ¬ p y := by
  refine ⟨l.takeWhile p, l.dropWhile p, List.takeWhile_append_dropWhile.symm,
    List.all_eq_true.1 List.all_takeWhile, fun y hy => ?_⟩
  have h := List.head?_dropWhile_not p l
  rw [hy] at h
  simpa using h

/-- What has been read is the tree of `before`, and `after` is read on.  Unless that is all, the
next operator binds no tighter than those of `before`, and none of these is an assignment. -/
theorem givesInfix_tree (hshorter : ∀ mid, mid.length < rest.length → Alternates mid →
      ReadsTree free mid) (htail : Alternates tail)
    (hstop : ∀ p ∈ tail.head?, p.1.token.level < least) (before after : Sequence)
    (hlength : after.length ≤ rest.length) (hafter : Alternates after)
    (hleast : ∀ p ∈ after, least ≤ p.1.token.level)
    (hnext : ∀ p ∈ after.head?, ∀ q ∈ before,
      p.1.token.level ≤ q.1.token.level ∧ q.1.token.level ≠ 1) :
    GivesInfix free least (tree first before) (lexemes (after ++ tail))
      (.ok (tree first (before ++ after), lexemes tail)) := by
  cases after with
  | nil =>
    rw [List.append_nil, List.nil_append]
    refine givesInfix_stop (ahead_lexemes free htail) fun t ht op hop => ?_
    obtain ⟨op', hop', hleft, -⟩ := exists_ofToken? (isInfix_of_mem_head? htail t ht)
    rw [hop] at hop'
    cases hop'
    rw [head?_lexemes] at ht
    obtain ⟨p, hp, rfl⟩ := Option.map_eq_some_iff.1 ht
    rw [hleft]
    exact hstop p hp
  | cons p others =>
    obtain ⟨t, atom⟩ := p
    obtain ⟨⟨ht : t.token.isInfix, hatom : atom.token.isAtom⟩, hothers⟩ :=
      List.forall_mem_cons.1 hafter
    obtain ⟨hfirst : least ≤ t.token.level, hleasts⟩ := List.forall_mem_cons.1 hleast
    obtain ⟨op, hop, hleft, hright, happly⟩ := exists_ofToken? ht
    have hlevel : t.token.level ≠ 0 := by simpa [Token.isInfix] using ht
    have hbefore : ∀ q ∈ before, t.token.level ≤ q.1.token.level ∧ q.1.token.level ≠ 1 :=
      hnext (t, atom) rfl
    -- the right operand takes the operators that bind tightly enough for it
    obtain ⟨mid, last, rfl, hmid, hlast⟩ :=
      exists_split (fun p : Lexeme × Lexeme => op.right ≤ p.1.token.level) others
    simp only [decide_eq_true_eq, Nat.not_le] at hmid hlast
    obtain ⟨halternates, hlasts⟩ := List.forall_mem_append.1 hothers
    rw [List.length_cons, List.length_append] at hlength
    have hfollow : Alternates (last ++ tail) := List.forall_mem_append.2 ⟨hlasts, htail⟩
    have hends : ∀ p ∈ (last ++ tail).head?, p.1.token.level < op.right := by
      cases last with
      | nil =>
        intro p hp
        have := hstop p hp
        split at hright <;> omega
      | cons p others => exact hlast
    have hread : GivesExpr free op.right (atom :: lexemes (mid ++ (last ++ tail)))
        (.ok (tree atom mid, lexemes (last ++ tail))) :=
      hshorter mid (by omega) halternates hatom hmid hfollow hends
    -- so the operator is the root of what has then been read
    have hroot : tree first (before ++ (t, atom) :: mid) =
        op.apply t.span (tree first before) (tree atom mid) := by
      rw [happly]
      refine tree_append_cons (fun q hq => (hbefore q hq).1) (fun q hq => ?_) ?_
      · have := hmid q hq
        split at hright <;> omega
      · split
        · exact fun q hq => (hbefore q hq).2
        · next hne =>
          intro q hq
          have := hmid q hq
          rw [if_neg hne] at hright
          omega
    have hrest := givesInfix_tree hshorter htail hstop (before ++ (t, atom) :: mid) last
      (by omega) hlasts (List.forall_mem_append.1 hleasts).2 ?_
    · rw [hroot, List.append_assoc, List.cons_append] at hrest
      have hlexemes : lexemes ((t, atom) :: (mid ++ last) ++ tail) =
          t :: atom :: lexemes (mid ++ (last ++ tail)) := by
        rw [List.cons_append, List.append_assoc]
        rfl
      have hahead : ahead free (t :: atom :: lexemes (mid ++ (last ++ tail))) = t :: _ :=
        ahead_cons free (ne_newline_of_isInfix ht)
      rw [hlexemes]
      refine givesInfix_cons hahead hop (by omega) ?_ hrest
      rwa [skipNewlines_cons (ne_newline_of_isAtom hatom)]
    · -- after an assignment nothing remains
      intro p hp
      have hp' : p.1.token.level < op.right := hlast p hp
      have hoperator : p.1.token.level ≠ 0 := by
        simpa [Token.isInfix] using (hlasts p (List.mem_of_mem_head? hp)).1
      refine List.forall_mem_append.2 ⟨fun q hq => ?_, List.forall_mem_cons.2 ⟨?_, fun q hq => ?_⟩⟩
      · have := hbefore q hq
        split at hright <;> omega
      · show p.1.token.level ≤ t.token.level ∧ t.token.level ≠ 1
        split at hright <;> omega
      · have := hmid q hq
        split at hright <;> omega
termination_by after.length

/-- The parser reads the tree of every sequence. -/
theorem readsTree (free : Bool) (rest : Sequence) (h : Alternates rest) : ReadsTree free rest := by
  intro first least tail hfirst hleast htail hstop
  have hshorter : ∀ mid, mid.length < rest.length → Alternates mid → ReadsTree free mid :=
    fun mid _ hmid => readsTree free mid hmid
  have hoperator : GivesInfix free least (tree first []) (lexemes (rest ++ tail))
      (.ok (tree first rest, lexemes tail)) :=
    givesInfix_tree hshorter htail hstop [] rest (Nat.le_refl _) h hleast
      (fun _ _ _ hq => absurd hq List.not_mem_nil)
  rw [tree_nil] at hoperator
  exact givesExpr (givesOperand_leaf hfirst (List.forall_mem_append.2 ⟨h, htail⟩)) hoperator
termination_by rest.length

end Parser

/-! ### Sequences as programs -/

/-- The parser reads atoms with operators between them by the precedence table: the lexemes as a
program of one statement, and a source text with these lexemes as an expression. -/
theorem parse_follows_table {first : Lexeme} {rest : List (Lexeme × Lexeme)}
    (hfirst : first.token.isAtom) (hrest : ∀ p ∈ rest, p.1.token.isInfix ∧ p.2.token.isAtom) :
    Parser.program (first :: rest.flatMap fun p => [p.1, p.2]) = .ok [Precedence.tree first rest] ∧
      ∀ source, lexCode? source = .ok (first :: rest.flatMap fun p => [p.1, p.2]) →
        parseExpr source = .ok (Precedence.tree first rest) := by
  have hgives : Parser.GivesExpr false 0 (first :: Precedence.lexemes (rest ++ []))
      (.ok (Precedence.tree first rest, [])) :=
    Parser.readsTree false rest hrest hfirst (fun _ _ => Nat.zero_le _)
      (fun _ hp => absurd hp List.not_mem_nil) (fun _ hp => by cases hp)
  rw [List.append_nil] at hgives
  have hprogram := Parser.program_of_givesExpr (Precedence.ne_newline_of_isAtom hfirst)
    (Precedence.ne_semicolon_of_isAtom hfirst) hgives
  exact ⟨hprogram, fun source hsource => Parser.parseExpr_of_program hsource hprogram⟩

/-- An assignment within a tighter operator takes all that follows, and so does the next one. -/
theorem parse_nested_assignments :
    parseExpr "a || b <- c <<- d" = .ok (.assign
      (.call (.sym "||" ⟨2, 2⟩) [.sym "a" ⟨0, 1⟩, .sym "b" ⟨5, 1⟩] ⟨0, 6⟩)
      (.assign (.sym "c" ⟨10, 1⟩) (.sym "d" ⟨16, 1⟩) .outer ⟨10, 7⟩) .inner ⟨0, 17⟩) := by
  have hscan : Scan.ofChars 0 "a || b <- c <<- d".toList = ⟨[⟨.ident "a", ⟨0, 1⟩, "a"⟩,
      ⟨.orOr, ⟨2, 2⟩, "||"⟩, ⟨.ident "b", ⟨5, 1⟩, "b"⟩,
      ⟨.leftArrow, ⟨7, 2⟩, "<-"⟩, ⟨.ident "c", ⟨10, 1⟩, "c"⟩,
      ⟨.superArrow, ⟨12, 3⟩, "<<-"⟩, ⟨.ident "d", ⟨16, 1⟩, "d"⟩], none⟩ := by
    decide +kernel
  have hparse := (@parse_follows_table ⟨.ident "a", ⟨0, 1⟩, "a"⟩
    [(⟨.orOr, ⟨2, 2⟩, "||"⟩, ⟨.ident "b", ⟨5, 1⟩, "b"⟩),
      (⟨.leftArrow, ⟨7, 2⟩, "<-"⟩, ⟨.ident "c", ⟨10, 1⟩, "c"⟩),
      (⟨.superArrow, ⟨12, 3⟩, "<<-"⟩, ⟨.ident "d", ⟨16, 1⟩, "d"⟩)] rfl (by decide)).2 _
    (lexCode?_of_ofChars hscan)
  -- the first assignment is the root
  have hroot := @Precedence.tree_append_cons ⟨.ident "a", ⟨0, 1⟩, "a"⟩
    ⟨.leftArrow, ⟨7, 2⟩, "<-"⟩ ⟨.ident "c", ⟨10, 1⟩, "c"⟩
    [(⟨.orOr, ⟨2, 2⟩, "||"⟩, ⟨.ident "b", ⟨5, 1⟩, "b"⟩)]
    [(⟨.superArrow, ⟨12, 3⟩, "<<-"⟩, ⟨.ident "d", ⟨16, 1⟩, "d"⟩)]
    (by decide) (by decide) (by decide)
  rw [Precedence.tree_singleton, Precedence.tree_singleton] at hroot
  exact hparse.trans (congrArg Except.ok hroot)

end PipeLang
