import PipeLang.Proofs.Rereading
import PipeLang.Parser.Program

/-!
# Trees up to spans and parentheses

Parentheses are nodes of their own, so a tree may differ from what it means by some of them.
`Expr.stripped` leaves them out, and the spans as well; what `Restores` an expression agrees with it
in that form (`Expr.Restores.stripped_eq`).  With it goes what it means that a printed expression is
read as another one (`Expr.ReadsAs`), or as the same (`Expr.ReadsBack`).
-/

namespace PipeLang

namespace Expr

mutual

/-- The expression without its spans and parentheses. -/
def stripped : Expr → Expr
  | lit literal _ => lit literal .nowhere
  | sym name _ => sym name .nowhere
  | call func args _ => call func.stripped (strippedAll args) .nowhere
  | paren inner _ => inner.stripped
  | block stmts _ => block (strippedAll stmts) .nowhere
  | list items _ => list (strippedAll items) .nowhere
  | record fields _ => record (strippedFields fields) .nowhere
  | field target name _ => field target.stripped name .nowhere
  | lambda params body _ => lambda params body.stripped .nowhere
  | ifThen cond yes _ => ifThen cond.stripped yes.stripped .nowhere
  | ifElse cond yes no _ => ifElse cond.stripped yes.stripped no.stripped .nowhere
  | assign target value scope _ => assign target.stripped value.stripped scope .nowhere
  | inline label ref _ => inline label ref .nowhere

/-- Each of the expressions without its spans and parentheses. -/
def strippedAll : List Expr → List Expr
  | [] => []
  | e :: rest => e.stripped :: strippedAll rest

/-- Each of the named expressions without its spans and parentheses. -/
def strippedFields : List (String × Expr) → List (String × Expr)
  | [] => []
  | (name, e) :: rest => (name, e.stripped) :: strippedFields rest

end

mutual

theorem stripped_unspanned : ∀ e : Expr, e.unspanned.stripped = e.stripped
  | lit .. | sym .. | inline .. => by rw [unspanned]; simp only [stripped]
  | call func args _ => by
    simp only [unspanned, stripped, stripped_unspanned func, strippedAll_unspannedAll args]
  | paren inner _ => by simp only [unspanned, stripped, stripped_unspanned inner]
  | block es _ | list es _ => by
    simp only [unspanned, stripped, strippedAll_unspannedAll es]
  | record fields _ => by
    simp only [unspanned, stripped, strippedFields_unspannedFields fields]
  | field e _ _ | lambda _ e _ => by simp only [unspanned, stripped, stripped_unspanned e]
  | ifThen cond yes _ => by
    simp only [unspanned, stripped, stripped_unspanned cond, stripped_unspanned yes]
  | ifElse cond yes no _ => by
    simp only [unspanned, stripped, stripped_unspanned cond, stripped_unspanned yes,
      stripped_unspanned no]
  | assign target value _ _ => by
    simp only [unspanned, stripped, stripped_unspanned target, stripped_unspanned value]

theorem strippedAll_unspannedAll :
    ∀ es : List Expr, strippedAll (unspannedAll es) = strippedAll es
  | [] => rfl
  | e :: rest => by
    simp only [unspannedAll, strippedAll, stripped_unspanned e, strippedAll_unspannedAll rest]

theorem strippedFields_unspannedFields :
    ∀ fields : List (String × Expr),
      strippedFields (unspannedFields fields) = strippedFields fields
  | [] => rfl
  | (name, e) :: rest => by
    simp only [unspannedFields, strippedFields, stripped_unspanned e,
      strippedFields_unspannedFields rest]

end

mutual

theorem stripped_parenthesized : ∀ e : Expr, e.parenthesized.stripped = e.stripped
  | lit .. | sym .. | inline .. => by rw [parenthesized]
  | call func args _ => by
    rw [parenthesized, stripped, stripped, strippedAll_parenthesizedAll args]
    split
    · rw [stripped_parenthesized func]
    · rw [stripped, stripped_parenthesized func]
  | paren inner _ => by simp only [parenthesized, stripped, stripped_parenthesized inner]
  | block es _ | list es _ => by
    simp only [parenthesized, stripped, strippedAll_parenthesizedAll es]
  | record fields _ => by
    simp only [parenthesized, stripped, strippedFields_parenthesizedFields fields]
  | field e _ _ | lambda _ e _ => by simp only [parenthesized, stripped, stripped_parenthesized e]
  | ifThen cond yes _ => by
    simp only [parenthesized, stripped, stripped_parenthesized cond, stripped_parenthesized yes]
  | ifElse cond yes no _ => by
    simp only [parenthesized, stripped, stripped_parenthesized cond, stripped_parenthesized yes,
      stripped_parenthesized no]
  | assign target value _ _ => by
    simp only [parenthesized, stripped, stripped_parenthesized target,
      stripped_parenthesized value]

theorem strippedAll_parenthesizedAll :
    ∀ es : List Expr, strippedAll (parenthesizedAll es) = strippedAll es
  | [] => rfl
  | e :: rest => by
    simp only [parenthesizedAll, strippedAll, stripped_parenthesized e,
      strippedAll_parenthesizedAll rest]

theorem strippedFields_parenthesizedFields :
    ∀ fields : List (String × Expr),
      strippedFields (parenthesizedFields fields) = strippedFields fields
  | [] => rfl
  | (name, e) :: rest => by
    simp only [parenthesizedFields, strippedFields, stripped_parenthesized e,
      strippedFields_parenthesizedFields rest]

end

/-- What restores an expression is the same without spans and parentheses. -/
theorem Restores.stripped_eq {e' e : Expr} (h : e'.Restores e) : e'.stripped = e.stripped := by
  rw [← stripped_unspanned e', h, stripped_unspanned, stripped_parenthesized]

/-! ### What is read back -/

/-- The printed form of the expression is read as another one. -/
def ReadsAs (e d : Expr) : Prop := ∃ e', parseExpr e.print = .ok e' ∧ e'.Restores d

/-- The printed form of the expression is read as the same one, up to spans and parentheses. -/
def ReadsBack (e : Expr) : Prop := ∃ e', parseExpr e.print = .ok e' ∧ e'.stripped = e.stripped

theorem ReadsAs.readsBack_iff {e d : Expr} (h : e.ReadsAs d) :
    e.ReadsBack ↔ d.stripped = e.stripped := by
  obtain ⟨e', hparse, hrestores⟩ := h
  constructor
  · rintro ⟨e'', hparse', heq⟩
    rw [hparse] at hparse'
    cases hparse'
    rw [← hrestores.stripped_eq, heq]
  · exact fun heq => ⟨e', hparse, hrestores.stripped_eq.trans heq⟩

end Expr

end PipeLang
