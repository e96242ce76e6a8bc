/-!
# Byte spans

A span names a stretch of a source text by its first byte and its number of bytes in UTF-8.
`Span.join` is the smallest span that covers two others: `join_comm`, and `offset_join_le` with
`le_stop_join` say that it covers its left operand, hence both.
-/

namespace PipeLang

/-- A stretch of a source text, in bytes of its UTF-8 form. -/
structure Span where
  /-- The first byte of the stretch. -/
  offset : Nat
  /-- How many bytes the stretch has. -/
  len : Nat
deriving DecidableEq, Inhabited

namespace Span

/-- The empty span at the start of the text, for nodes that stand in no text. -/
def nowhere : Span := ⟨0, 0⟩

/-- The byte after the last one. -/
def stop (s : Span) : Nat := s.offset + s.len

/-- The smallest span covering both `a` and `b`. -/
def join (a b : Span) : Span :=
  let start := min a.offset b.offset
  ⟨start, max a.stop b.stop - start⟩

/-! ### What a joined span covers -/

theorem join_comm (a b : Span) : a.join b = b.join a := by
  simp [join, Nat.min_comm, Nat.max_comm]

@[simp] theorem offset_join (a b : Span) : (a.join b).offset = min a.offset b.offset := rfl

@[simp] theorem stop_join (a b : Span) : (a.join b).stop = max a.stop b.stop := by
  simp only [stop, join]
  omega

theorem offset_join_le (a b : Span) : (a.join b).offset ≤ a.offset := by
  simp only [offset_join]
  omega

theorem le_stop_join (a b : Span) : a.stop ≤ (a.join b).stop := by
  simp only [stop_join]
  omega

end Span

/-- The number of bytes of a text in UTF-8. -/
def byteLength : List Char → Nat
  | [] => 0
  | c :: text => c.utf8Size + byteLength text

@[simp] theorem byteLength_nil : byteLength [] = 0 := rfl

@[simp] theorem byteLength_cons (c : Char) (text : List Char) :
    byteLength (c :: text) = c.utf8Size + byteLength text := rfl

@[simp] theorem byteLength_append (a b : List Char) :
    byteLength (a ++ b) = byteLength a + byteLength b := by
  induction a with
  | nil => simp
  | cons c a ih => simp [ih, Nat.add_assoc]

end PipeLang
