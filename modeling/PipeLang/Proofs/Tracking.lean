import PipeLang.Proofs.Newlines
import PipeLang.Proofs.Trail

/-!
# Following the parser

A walk follows a part of the parser from a cursor on (`Tracks`) if it answers alike, at what the
parser leaves, and gets there on a trail.  The trail is measured against the way it leads (`Leads`):
its effort is at most six units for each position that it comes further, and so many units more.
Parts that take a lexeme may have a negative number of units there, and so can pay for parts that
take none.

Walks follow step by step (`Tracks.bind`).  The single steps are here: to begin a part, to pass over
a lexeme or over line breaks (`tracks_next` and its like), to take the first lexeme of an atom
(`tracks_takeFirst`) and to look for an alternative (`tracks_findElse`).
-/

namespace PipeLang.Parser

variable {tokens ts rest : List Lexeme} {complete free : Bool} {part : Part} {step : Nat → Move}
  {kind : Lexeme → Bool} {t : Lexeme} {c c' d : Cursor} {more more' : Int}

/-! ### What is left at a cursor -/

theorem drop_length_takeWhile (kind : Lexeme → Bool) (ts : List Lexeme) :
    ts.drop (ts.takeWhile kind).length = ts.dropWhile kind := by
  have h : (ts.takeWhile kind ++ ts.dropWhile kind).drop (ts.takeWhile kind).length =
      ts.dropWhile kind := List.drop_left
  rwa [List.takeWhile_append_dropWhile] at h

/-- A token stands wherever one passes over lexemes with this token. -/
theorem isAt_of_takeWhile {token : Token} {i k : Nat} (hle : i ≤ k)
    (hlt : k < i + ((tokens.drop i).takeWhile fun t => t.token == token).length) :
    isAt tokens token k = true := by
  obtain ⟨n, rfl⟩ := Nat.exists_eq_add_of_le hle
  have hn : n < ((tokens.drop i).takeWhile fun t => t.token == token).length := by omega
  obtain ⟨t, ht⟩ : ∃ t, ((tokens.drop i).takeWhile fun t => t.token == token)[n]? = some t :=
    ⟨_, List.getElem?_eq_getElem hn⟩
  have htoken := List.all_eq_true.1 List.all_takeWhile t (List.mem_of_getElem? ht)
  rw [← List.getElem?_append_left hn, List.takeWhile_append_dropWhile, List.getElem?_drop] at ht
  rw [isAt, ht]
  exact htoken

namespace Cursor

theorem getElem?_index (tokens : List Lexeme) (c : Cursor) :
    tokens[c.index]? = (c.left tokens).head? := List.head?_drop.symm

theorem length_left (tokens : List Lexeme) (c : Cursor) :
    (c.left tokens).length = tokens.length - c.index := List.length_drop

theorem left_past (step : Nat → Move) (n : Nat) (c : Cursor) :
    (c.past step n).left tokens = (c.left tokens).drop n := List.drop_drop.symm

theorem left_skip (tokens : List Lexeme) (step : Nat → Move) (kind : Lexeme → Bool) (c : Cursor) :
    (c.skip tokens step kind).left tokens = (c.left tokens).dropWhile kind := by
  rw [skip, left_past, drop_length_takeWhile]

/-- What the grammar sees is a number of line breaks further. -/
theorem exists_ahead (tokens : List Lexeme) (step : Nat → Move) (free : Bool) (c : Cursor) :
    ∃ n, n ≤ tokens.length - c.index ∧ c.ahead tokens step free = c.past step n ∧
      (c.past step n).left tokens = Parser.ahead free (c.left tokens) := by
  cases free with
  | false => exact ⟨0, Nat.zero_le _, by simp [ahead, past], by rw [left_past]; rfl⟩
  | true =>
    refine ⟨_, ?_, rfl, left_skip tokens step _ c⟩
    rw [← length_left]
    exact (List.takeWhile_sublist _).length_le

theorem lt_of_left (h : c.left tokens = t :: rest) : c.index < tokens.length := by
  have hlength := c.length_left tokens
  rw [h, List.length_cons] at hlength
  omega

end Cursor

/-! ### Ways from one cursor to another -/

/-- The one cursor leads to the other one on a trail.  The effort is at most six units for each
position that it comes further, and a number of units more, which may be negative. -/
def Leads (tokens : List Lexeme) (complete : Bool) (more : Int) (c d : Cursor) : Prop :=
  ∃ ms, d.moves = c.moves ++ ms ∧ Trail tokens complete c.index ms d.index ∧
    (effort ms : Int) + 6 * c.index ≤ 6 * d.index + more

theorem Leads.refl (tokens : List Lexeme) (complete : Bool) (c : Cursor) :
    Leads tokens complete 0 c c := ⟨[], by simp, .nil _ _, by simp⟩

theorem Leads.mono (h : Leads tokens complete more c d) (hmore : more ≤ more') :
    Leads tokens complete more' c d := by
  obtain ⟨ms, hmoves, htrail, heffort⟩ := h
  exact ⟨ms, hmoves, htrail, by omega⟩

theorem Leads.trans (h : Leads tokens true more c c') (h' : Leads tokens complete more' c' d) :
    Leads tokens complete (more + more') c d := by
  obtain ⟨ms, hmoves, htrail, heffort⟩ := h
  obtain ⟨ms', hmoves', htrail', heffort'⟩ := h'
  refine ⟨ms ++ ms', ?_, htrail.append htrail', ?_⟩
  · rw [hmoves', hmoves, List.append_assoc]
  · rw [effort_append]
    omega

theorem leads_enter (tokens : List Lexeme) (hpart : part ≠ .atom) (c : Cursor) :
    Leads tokens true 1 c (c.enter part) :=
  ⟨_, rfl, .enter hpart (.nil _ _), by simp [Cursor.enter]; omega⟩

theorem leads_past {n : Nat} (hn : n ≤ tokens.length - c.index) :
    Leads tokens true (-6 * n) c (c.past .pass n) :=
  ⟨_, rfl, .passes hn, by simp [Cursor.past]; omega⟩

theorem leads_ahead (tokens : List Lexeme) (free : Bool) (c : Cursor) :
    Leads tokens true 0 c (c.ahead tokens .pass free) := by
  obtain ⟨n, hn, hahead, -⟩ := c.exists_ahead tokens .pass free
  rw [hahead]
  exact (leads_past hn).mono (by omega)

theorem leads_skip (tokens : List Lexeme) (kind : Lexeme → Bool) (c : Cursor) :
    Leads tokens true 0 c (c.skip tokens .pass kind) := by
  refine (leads_past ?_).mono (by omega)
  rw [← c.length_left]
  exact (List.takeWhile_sublist _).length_le

/-- A search without an alternative leads back. -/
theorem leads_back (h : ∀ t ∈ (skipNewlines (c.left tokens)).head?, t.token ≠ .elseWord) :
    Leads tokens true 1 c
      ((c.skip tokens .pass fun t => t.token == .newline).backTo c) := by
  have hfound : tokens[(c.skip tokens .pass fun t => t.token == .newline).index]? =
      (skipNewlines (c.left tokens)).head? := by
    rw [Cursor.getElem?_index, Cursor.left_skip]
    rfl
  refine ⟨steps .pass c.index _ ++ .noElse _ c.index :: [], ?_,
    .noElse ?_ (fun _ => isAt_of_takeWhile) ?_ (.nil _ _), by simp [Cursor.backTo]; omega⟩
  · exact List.append_assoc _ _ _
  · rw [← c.length_left]
    exact (List.takeWhile_sublist _).length_le
  · rw [isAt, ← Bool.not_eq_true, Option.any_eq_true]
    rintro ⟨t, ht, helse⟩
    exact h t (hfound.symm.trans ht) (beq_iff_eq.1 helse)

/-! ### Walks that answer as the parser does -/

theorem Walk.bind_of_ok {α β : Type} {y : Walk α} {g : α → Walk β} {v : α}
    (h : y tokens c = (.ok v, d)) : (y >>= g) tokens c = g v tokens d := by
  show Walk.bind y g tokens c = _
  rw [Walk.bind, h]

/-- The walk answers as the parser does: with a result that is good, at what the parser leaves, or
with the same error, or neither has enough fuel.  It gets where it is on a trail, with so much
effort more than six units for each position, depending on how it ends. -/
inductive Tracks {α β : Type} (tokens : List Lexeme) (good : α → β → List Lexeme → Prop)
    (onOk onError : Int) (c : Cursor) : Parsed α → Parsed β × Cursor → Prop
  | ok {a : α} {b : β} {d : Cursor} (h : good a b (d.left tokens))
      (hleads : Leads tokens true onOk c d) : Tracks tokens good onOk onError c (.ok a) (.ok b, d)
  | error (e : ParseError) {d : Cursor} (hleads : Leads tokens false onError c d) :
      Tracks tokens good onOk onError c (.error e) (.error e, d)
  | outOfFuel (d : Cursor) : Tracks tokens good onOk onError c .outOfFuel (.outOfFuel, d)

/-- The same result, and the parser leaves the rest. -/
def Same {α : Type} (a : α × List Lexeme) (b : α) (rest : List Lexeme) : Prop := a = (b, rest)

/-- The same two results, and the parser leaves the rest. -/
def SameBoth {α β : Type} (a : α × β × List Lexeme) (b : α × β) (rest : List Lexeme) : Prop :=
  a = (b.1, b.2, rest)

namespace Tracks

variable {α β γ δ : Type} {good : α → β → List Lexeme → Prop}
  {after : γ → δ → List Lexeme → Prop} {onOk onError a b : Int} {x : Parsed α}
  {out : Parsed β × Cursor} {g : Unit → Walk β}

theorem mono (h : Tracks tokens good a b c x out) (ha : a ≤ onOk) (hb : b ≤ onError) :
    Tracks tokens good onOk onError c x out := by
  cases h with
  | ok h hleads => exact .ok h (hleads.mono ha)
  | error e hleads => exact .error e (hleads.mono hb)
  | outOfFuel d => exact .outOfFuel d

/-- Go on from where a way leads. -/
theorem of_leads (hleads : Leads tokens true a c d)
    (h : Tracks tokens good (onOk - a) (onError - a) d x out) :
    Tracks tokens good onOk onError c x out := by
  cases h with
  | ok h hrest => exact .ok h ((hleads.trans hrest).mono (by omega))
  | error e hrest => exact .error e ((hleads.trans hrest).mono (by omega))
  | outOfFuel d => exact .outOfFuel d

/-- How a result came about may be kept in mind. -/
theorem and_eq (h : Tracks tokens good onOk onError c x out) :
    Tracks tokens (fun a b rest => x = .ok a ∧ good a b rest) onOk onError c x out := by
  cases h with
  | ok h hleads => exact .ok ⟨rfl, h⟩ hleads
  | error e hleads => exact .error e hleads
  | outOfFuel d => exact .outOfFuel d

theorem bind {y : Walk β} {f : α → Parsed γ} {g : β → Walk δ}
    (h : Tracks tokens good a b c x (y tokens c)) (hb : b ≤ onError)
    (hf : ∀ r v d, good r v (d.left tokens) →
      Tracks tokens after (onOk - a) (onError - a) d (f r) (g v tokens d)) :
    Tracks tokens after onOk onError c (x >>= f) ((y >>= g) tokens c) := by
  show Tracks tokens after onOk onError c _ (Walk.bind y g tokens c)
  unfold Walk.bind
  generalize y tokens c = out at h
  cases h with
  | ok h hleads => exact of_leads hleads (hf _ _ _ h)
  | error e hleads => exact .error e (hleads.mono hb)
  | outOfFuel d => exact .outOfFuel d

theorem pure {r : α} {v : β} (h : good r v (c.left tokens)) (hok : 0 ≤ onOk) :
    Tracks tokens good onOk onError c (.ok r) ((Pure.pure v : Walk β) tokens c) :=
  .ok h ((Leads.refl tokens true c).mono hok)

theorem fail (e : ParseError) (herror : 0 ≤ onError) :
    Tracks tokens good onOk onError c (.error e) ((Walk.fail e : Walk β) tokens c) :=
  .error e ((Leads.refl tokens false c).mono herror)

theorem enter (hpart : part ≠ .atom) (hc : c.left tokens = ts)
    (h : ∀ d, d.left tokens = ts →
      Tracks tokens good (onOk - 1) (onError - 1) d x (g () tokens d)) :
    Tracks tokens good onOk onError c x ((Walk.enter part >>= g) tokens c) :=
  of_leads (leads_enter tokens hpart c) (h _ hc)

theorem pass (hc : c.left tokens = t :: ts)
    (h : ∀ d, d.left tokens = ts →
      Tracks tokens good (onOk + 6) (onError + 6) d x (g () tokens d)) :
    Tracks tokens good onOk onError c x ((Walk.pass >>= g) tokens c) := by
  have hlt := Cursor.lt_of_left hc
  have hleads : Leads tokens true (-6) c (c.past .pass 1) :=
    (leads_past (by omega)).mono (by omega)
  refine of_leads hleads ?_
  rw [Int.sub_neg, Int.sub_neg]
  exact h _ (by rw [Cursor.left_past, hc]; rfl)

theorem skip (hc : c.left tokens = ts)
    (h : ∀ d, d.left tokens = ts.dropWhile kind →
      Tracks tokens good onOk onError d x (g () tokens d)) :
    Tracks tokens good onOk onError c x
      ((Walk.move (fun tokens => Cursor.skip tokens .pass kind) >>= g) tokens c) := by
  refine of_leads (leads_skip tokens kind c) ?_
  rw [Int.sub_zero, Int.sub_zero]
  exact h _ (by rw [Cursor.left_skip, hc])

theorem look {γ : Type} {f : List Lexeme → γ} {g : γ → Walk β}
    (h : Tracks tokens good onOk onError c x (g (f (c.left tokens)) tokens c)) :
    Tracks tokens good onOk onError c x ((Walk.look f >>= g) tokens c) := h

theorem current {g : Option Lexeme → Walk β} (hc : c.left tokens = ts)
    (h : Tracks tokens good onOk onError c x (g ts.head? tokens c)) :
    Tracks tokens good onOk onError c x ((Walk.current >>= g) tokens c) := by
  subst hc
  exact h

theorem peek {g : Option Lexeme → Walk β} (hc : c.left tokens = ts)
    (h : ∀ d, d.left tokens = ahead free ts →
      Tracks tokens good onOk onError d x (g (ahead free ts).head? tokens d)) :
    Tracks tokens good onOk onError c x ((Walk.peek .pass free >>= g) tokens c) := by
  obtain ⟨n, -, hahead, hleft⟩ := c.exists_ahead tokens .pass free
  refine of_leads (leads_ahead tokens free c) ?_
  rw [Int.sub_zero, Int.sub_zero]
  have hd : (c.ahead tokens .pass free).left tokens = ahead free ts := by rw [hahead, hleft, hc]
  have hrest := h _ hd
  rw [← hd] at hrest
  exact hrest

end Tracks

/-! ### Single lexemes -/

variable {token : Token} {what : String}

theorem tracks_next (hc : c.left tokens = ts) :
    Tracks tokens Same (-6) 0 c (next free ts) (Walk.next free tokens c) := by
  rw [next]
  refine Tracks.peek hc fun d hd => ?_
  generalize ahead free ts = us at hd ⊢
  cases us with
  | nil => exact .fail _ (by decide)
  | cons t rest => exact .pass hd fun d hd => .pure (by rw [hd]; rfl) (by decide)

theorem tracks_expect (hc : c.left tokens = ts) :
    Tracks tokens Same (-6) 0 c (expect free token what ts)
      (Walk.expect free token what tokens c) := by
  refine (tracks_next hc).bind (by decide) ?_
  rintro _ t d rfl
  dsimp only
  split
  · exact .pure rfl (by decide)
  · exact .fail _ (by decide)

theorem tracks_expectName (hc : c.left tokens = ts) :
    Tracks tokens SameBoth (-6) 0 c (expectName free what ts)
      (Walk.expectName free what tokens c) := by
  refine (tracks_next hc).bind (by decide) ?_
  rintro _ t d rfl
  dsimp only
  cases t.token with
  | ident name => exact .pure rfl (by decide)
  | _ => exact .fail _ (by decide)

/-- An atom takes its first lexeme, and the line breaks before it. -/
theorem tracks_takeFirst (hc : c.left tokens = ts) :
    Tracks tokens Same (-5) 1 c (next free ts) (Walk.takeFirst free tokens c) := by
  obtain ⟨n, hn, hahead, hleft⟩ := (c.enter .atom).exists_ahead tokens .take free
  have htake : Walk.takeFirst free tokens c =
      Walk.consume .take (((c.enter .atom).past .take n).left tokens).head? tokens
        ((c.enter .atom).past .take n) := by
    rw [← hahead]
    rfl
  rw [htake, next, ← hc, show ahead free (c.left tokens) = _ from hleft.symm]
  cases hd : ((c.enter .atom).past .take n).left tokens with
  | nil =>
    -- at the end of the source the newlines before it have been taken all the same
    refine .error _ ⟨.enter .atom c.index :: steps .take c.index n, ?_, .noAtom hn, ?_⟩
    · exact List.append_assoc _ _ _
    · simp [Cursor.past, Cursor.enter]
      omega
  | cons t rest =>
    have hlt : c.index + n < tokens.length := Cursor.lt_of_left hd
    refine .ok ?_ ⟨.enter .atom c.index :: (steps .take c.index (n + 1) ++ []), ?_,
      .atom hlt (.nil _ _), ?_⟩
    · rw [Same, Cursor.left_past, hd]
      rfl
    · rw [List.append_nil, ← steps_append_one]
      simp [Cursor.past, Cursor.enter]
    · simp [Cursor.past, Cursor.enter]
      omega

/-- The search for an alternative. -/
theorem tracks_findElse {α β : Type} {good : α → β → List Lexeme → Prop} {onOk onError : Int}
    {x : Parsed α} {g : Bool → Walk β} (hc : c.left tokens = ts)
    (hfound : ∀ t rest d, skipNewlines ts = t :: rest → t.token = .elseWord →
      d.left tokens = rest → Tracks tokens good onOk onError d x (g true tokens d))
    (hnone : (∀ t ∈ (skipNewlines ts).head?, t.token ≠ .elseWord) → ∀ d, d.left tokens = ts →
      Tracks tokens good (onOk - 1) (onError - 1) d x (g false tokens d)) :
    Tracks tokens good onOk onError c x ((Walk.findElse >>= g) tokens c) := by
  subst hc
  have hleft : (c.skip tokens .pass fun t => t.token == .newline).left tokens =
      skipNewlines (c.left tokens) := c.left_skip tokens .pass _
  by_cases helse : ∃ t rest, skipNewlines (c.left tokens) = t :: rest ∧ t.token = .elseWord
  · obtain ⟨t, rest, hskip, ht⟩ := helse
    have hfind : Walk.findElse tokens c =
        (.ok true, (c.skip tokens .pass fun t => t.token == .newline).past .pass 1) := by
      rw [Walk.findElse, hleft, hskip]
      exact if_pos ht
    have hlt := Cursor.lt_of_left (hleft.trans hskip)
    -- the newlines and the word are passed
    have hway : Leads tokens true 0 c
        ((c.skip tokens .pass fun t => t.token == .newline).past .pass 1) :=
      ((leads_skip tokens _ c).trans (leads_past (by omega))).mono (by decide)
    rw [Walk.bind_of_ok hfind]
    refine Tracks.of_leads hway ?_
    rw [Int.sub_zero, Int.sub_zero]
    exact hfound t rest _ hskip ht (by rw [Cursor.left_past, hleft, hskip]; rfl)
  · have hnext : ∀ t ∈ (skipNewlines (c.left tokens)).head?, t.token ≠ .elseWord := by
      intro t ht htoken
      obtain ⟨rest, hskip⟩ := List.head?_eq_some_iff.1 ht
      exact helse ⟨t, rest, hskip, htoken⟩
    -- the newlines are given back
    have hfind : Walk.findElse tokens c =
        (.ok false, (c.skip tokens .pass fun t => t.token == .newline).backTo c) := by
      rw [Walk.findElse, hleft]
      cases hskip : skipNewlines (c.left tokens) with
      | nil => rfl
      | cons t rest => exact if_neg (hnext t (by rw [hskip]; rfl))
    rw [Walk.bind_of_ok hfind]
    exact Tracks.of_leads (leads_back hnext) (hnone hnext _ rfl)

end PipeLang.Parser
