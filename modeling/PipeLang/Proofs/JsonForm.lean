import PipeLang.Expr.Codec
import PipeLang.Proofs.Literals
import PipeLang.Proofs.Targets

/-!
# Trees and their JSON forms

A tree without floats has a JSON form exactly if no value is spliced into it, and reading the form
gives the tree back, spans included (`json_forms_are_faithful`).  The reader accepts much more than
the writer writes: other members, parts given as lists, alternatives left out.  Still every tree
that it accepts has a form that is read as the same tree.

The way there and back is an induction on the tree: the form of a node is read by the case of
`Expr.ofKind?` for its constructor, which finds the forms of the parts under their names.  For what
is read from other JSON values, an induction on the size of the value shows that no node is a
splice and that all spans fit into 64 bits (`not_has_of_ofJson?`), so that the first part applies.
-/

namespace PipeLang

/-- Both numbers of the span fit into 64 bits. -/
def Span.Fits (s : Span) : Prop := s.offset < 1 <<< 64 ∧ s.len < 1 <<< 64

instance (s : Span) : Decidable s.Fits := inferInstanceAs (Decidable (_ ∧ _))

namespace Expr

/-- A float literal. -/
def isFloat : Expr → Bool
  | lit (.float _) _ => true
  | _ => false

/-- A spliced value. -/
def isInline : Expr → Bool
  | inline .. => true
  | _ => false

/-- A node whose span is out of range. -/
def isOversized (e : Expr) : Bool := !decide e.span.Fits

end Expr

open Json (part?)

/-! ### Which trees have a form -/

theorem any_const {α : Type} (x : Option α) (b : Bool) :
    (x.any fun _ => b) = (x.isSome && b) := by
  cases x <;> rfl

mutual

/-- A tree has a JSON form exactly if no value is spliced into it. -/
theorem Expr.isSome_toJson? (e : Expr) : e.toJson?.isSome = !e.has isInline := by
  cases e with
  | lit | sym | inline => simp [toJson?, has, isInline]
  | paren | field | lambda | ifThen | ifElse | assign =>
    simp [toJson?, has, isInline, Option.isSome_bind, any_const, isSome_toJson?, Bool.and_assoc]
  | block es s | list es s =>
    have hall := isSome_toJsonAll? es
    simp [toJson?, has, isInline, Option.isSome_bind, hall]
  | call func args s =>
    have hall := isSome_toJsonAll? args
    simp [toJson?, has, isInline, Option.isSome_bind, any_const, isSome_toJson? func, hall]
  | record fields s =>
    have hall := isSome_fieldsToJson? fields
    simp [toJson?, has, isInline, Option.isSome_bind, hall]

/-- A list has a form exactly if all its items have one. -/
theorem Expr.isSome_toJsonAll? (es : List Expr) :
    (Expr.toJsonAll? es).isSome = !Expr.anyHas isInline es := by
  cases es with
  | nil => rfl
  | cons e rest =>
    simp [toJsonAll?, anyHas, Option.isSome_bind, any_const, isSome_toJson? e,
      isSome_toJsonAll? rest]

/-- So with fields, each of them a pair of a name and an expression. -/
theorem Expr.isSome_fieldsToJson? (fields : List (String × Expr)) :
    (Expr.fieldsToJson? fields).isSome = !Expr.anyFieldHas isInline fields := by
  match fields with
  | [] => rfl
  | (name, e) :: rest =>
    simp [fieldsToJson?, anyFieldHas, Option.isSome_bind, any_const, isSome_toJson? e,
      isSome_fieldsToJson? rest]

end

/-! ### There and back -/

/-- Numbers below 2 to the 64th are read as they were written. -/
theorem asNat?_int {n : Nat} (h : n < 1 <<< 64) : Json.asNat? (.int n) = some n := by
  have hrange : 0 ≤ (n : Int) ∧ (n : Int).toNat < 1 <<< 64 := ⟨Int.natCast_nonneg n, h⟩
  rw [Json.asNat?, if_pos hrange, Int.toNat_natCast]

theorem Span.ofJson?_toJson {s : Span} (h : s.Fits) : Span.ofJson? s.toJson = some s := by
  obtain ⟨hoffset, hlen⟩ := h
  simp [ofJson?, toJson, part?, Json.lookup?, asNat?_int hoffset, asNat?_int hlen]

theorem AssignScope.ofJson?_toJson (scope : AssignScope) :
    AssignScope.ofJson? scope.toJson = some scope := by
  cases scope <;> rfl

theorem asStrings?_map (names : List String) :
    Json.asStrings? (.arr (names.map .str)) = some names := by
  induction names with
  | nil => rfl
  | cons name rest ih =>
    rw [Json.asStrings?] at ih ⊢
    rw [List.map_cons, List.mapM_cons, ih]
    rfl

namespace Expr

/-- A node is read by its kind, once its span has been read. -/
theorem ofJson?_nodeJson (kind : Json) (s : Span) (h : s.Fits) :
    ofJson? (nodeJson kind s) = ofKind? kind s := by
  rw [ofJson?]
  simp [nodeJson, part?, Json.lookup?, Span.ofJson?_toJson h]

/-- The kind of a literal is read as the literal. -/
theorem ofKind?_kindJson (literal : Literal) (s : Span)
    (hfloat : isFloat (.lit literal s) = false) :
    ofKind? literal.kindJson s = some (.lit literal s) := by
  cases literal with
  | float => cases hfloat
  | null | bool | int | str => simp [Literal.kindJson, ofKind?, Literal.ofKind?]

/-- The form of a tree is an object. -/
theorem exists_obj_of_toJson? {e : Expr} {json : Json} (h : e.toJson? = some json) :
    ∃ members, json = .obj members := by
  cases e with
  | lit | sym | inline => cases h <;> exact ⟨_, rfl⟩
  | paren | block | list | record | field | lambda =>
    simp only [toJson?, Option.bind_eq_bind, Option.bind_eq_some_iff, Option.some.injEq] at h
    obtain ⟨_, _, rfl⟩ := h
    exact ⟨_, rfl⟩
  | call | ifThen | assign =>
    simp only [toJson?, Option.bind_eq_bind, Option.bind_eq_some_iff, Option.some.injEq] at h
    obtain ⟨_, _, _, _, rfl⟩ := h
    exact ⟨_, rfl⟩
  | ifElse =>
    simp only [toJson?, Option.bind_eq_bind, Option.bind_eq_some_iff, Option.some.injEq] at h
    obtain ⟨_, _, _, _, _, _, rfl⟩ := h
    exact ⟨_, rfl⟩

/-- A node is oversized itself, or only in its parts. -/
theorem fits_of_has {e : Expr} (h : e.has isOversized = false) : e.span.Fits := by
  by_contra hspan
  have htest : e.isOversized = true := by simp [isOversized, hspan]
  rw [has_of_test htest] at h
  cases h

end Expr

mutual

/-- The form of a tree without floats is read as the tree. -/
theorem Expr.ofJson?_toJson? {e : Expr} {json : Json} (hfloat : e.has isFloat = false)
    (hfits : e.has isOversized = false) (h : e.toJson? = some json) :
    Expr.ofJson? json = some e := by
  have hspan := fits_of_has hfits
  cases e
  case lit literal s =>
    cases h
    rw [ofJson?_nodeJson _ s hspan, ofKind?_kindJson literal s hfloat]
  case sym name s =>
    cases h
    rw [ofJson?_nodeJson _ s hspan]
    simp [ofKind?, Json.asString?]
  case inline => cases h
  -- the parts of all other nodes have forms
  all_goals
    simp only [has, Bool.or_eq_false_iff] at hfloat hfits
    simp only [toJson?, Option.bind_eq_bind, Option.bind_eq_some_iff, Option.some.injEq] at h
  case call func args s =>
    obtain ⟨func', hfunc, args', hargs, rfl⟩ := h
    have hfunc := ofJson?_toJson? hfloat.1.2 hfits.1.2 hfunc
    have hargs := listOfJson?_toJsonAll? hfloat.2 hfits.2 hargs
    rw [ofJson?_nodeJson _ s hspan]
    simp [ofKind?, part?, Json.lookup?, hfunc, hargs]
  case paren inner s =>
    obtain ⟨inner', hinner, rfl⟩ := h
    have hinner := ofJson?_toJson? hfloat.2 hfits.2 hinner
    rw [ofJson?_nodeJson _ s hspan]
    simp [ofKind?, hinner]
  case block es s | list es s =>
    obtain ⟨es', hes, rfl⟩ := h
    have hes := listOfJson?_toJsonAll? hfloat.2 hfits.2 hes
    rw [ofJson?_nodeJson _ s hspan]
    simp [ofKind?, hes]
  case record fields s =>
    obtain ⟨fields', hfields, rfl⟩ := h
    have hfields := fieldsOfJson?_fieldsToJson? hfloat.2 hfits.2 hfields
    rw [ofJson?_nodeJson _ s hspan]
    simp [ofKind?, hfields]
  case field target name s =>
    obtain ⟨target', htarget, rfl⟩ := h
    have htarget := ofJson?_toJson? hfloat.2 hfits.2 htarget
    rw [ofJson?_nodeJson _ s hspan]
    simp [ofKind?, part?, Json.lookup?, Json.asString?, htarget]
  case lambda params body s =>
    obtain ⟨body', hbody, rfl⟩ := h
    have hbody := ofJson?_toJson? hfloat.2 hfits.2 hbody
    rw [ofJson?_nodeJson _ s hspan]
    simp [ofKind?, part?, Json.lookup?, asStrings?_map, hbody]
  case ifThen cond yes s =>
    obtain ⟨cond', hcond, yes', hyes, rfl⟩ := h
    have hcond := ofJson?_toJson? hfloat.1.2 hfits.1.2 hcond
    have hyes := ofJson?_toJson? hfloat.2 hfits.2 hyes
    rw [ofJson?_nodeJson _ s hspan]
    simp [ofKind?, part?, Json.lookup?, hcond, hyes]
  case ifElse cond yes no s =>
    obtain ⟨cond', hcond, yes', hyes, no', hno, rfl⟩ := h
    have hcond := ofJson?_toJson? hfloat.1.1.2 hfits.1.1.2 hcond
    have hyes := ofJson?_toJson? hfloat.1.2 hfits.1.2 hyes
    -- The form of the alternative is not `null`, which would stand for a missing one.
    obtain ⟨members, rfl⟩ := exists_obj_of_toJson? hno
    have hno := ofJson?_toJson? hfloat.2 hfits.2 hno
    rw [ofJson?_nodeJson _ s hspan]
    simp [ofKind?, part?, Json.lookup?, hcond, hyes, hno]
  case assign target value scope s =>
    obtain ⟨target', htarget, value', hvalue, rfl⟩ := h
    have htarget := ofJson?_toJson? hfloat.1.2 hfits.1.2 htarget
    have hvalue := ofJson?_toJson? hfloat.2 hfits.2 hvalue
    rw [ofJson?_nodeJson _ s hspan]
    simp [ofKind?, part?, Json.lookup?, AssignScope.ofJson?_toJson, htarget, hvalue]

theorem Expr.listOfJson?_toJsonAll? {es : List Expr} {items : List Json}
    (hfloat : Expr.anyHas isFloat es = false) (hfits : Expr.anyHas isOversized es = false)
    (h : Expr.toJsonAll? es = some items) : Expr.listOfJson? items = some es := by
  cases es with
  | nil =>
    cases h
    simp [listOfJson?]
  | cons e rest =>
    simp only [anyHas, Bool.or_eq_false_iff] at hfloat hfits
    simp only [toJsonAll?, Option.bind_eq_bind, Option.bind_eq_some_iff, Option.some.injEq] at h
    obtain ⟨first, hfirst, others, hothers, rfl⟩ := h
    have hfirst := ofJson?_toJson? hfloat.1 hfits.1 hfirst
    have hothers := listOfJson?_toJsonAll? hfloat.2 hfits.2 hothers
    simp [listOfJson?, hfirst, hothers]

theorem Expr.fieldsOfJson?_fieldsToJson? {fields : List (String × Expr)} {items : List Json}
    (hfloat : Expr.anyFieldHas isFloat fields = false)
    (hfits : Expr.anyFieldHas isOversized fields = false)
    (h : Expr.fieldsToJson? fields = some items) : Expr.fieldsOfJson? items = some fields := by
  match fields with
  | [] =>
    cases h
    simp [fieldsOfJson?]
  | (name, e) :: rest =>
    simp only [anyFieldHas, Bool.or_eq_false_iff] at hfloat hfits
    simp only [fieldsToJson?, Option.bind_eq_bind, Option.bind_eq_some_iff,
      Option.some.injEq] at h
    obtain ⟨first, hfirst, others, hothers, rfl⟩ := h
    have hfirst := ofJson?_toJson? hfloat.1 hfits.1 hfirst
    have hothers := fieldsOfJson?_fieldsToJson? hfloat.2 hfits.2 hothers
    simp [fieldsOfJson?, hfirst, hothers]

end

/-! ### What is read -/

/-- No number beyond is read as one. -/
theorem lt_of_asNat? {json : Json} {n : Nat} (h : json.asNat? = some n) : n < 1 <<< 64 := by
  cases json with
  | int m =>
    rw [Json.asNat?] at h
    split at h
    · next hrange =>
      cases h
      exact hrange.2
    · cases h
  | _ => cases h

/-- A span that was read fits, since both of its numbers do. -/
theorem Span.fits_of_ofJson? {json : Json} {s : Span} (h : Span.ofJson? json = some s) :
    s.Fits := by
  simp only [ofJson?, Option.bind_eq_bind, Option.bind_eq_some_iff, Option.some.injEq] at h
  obtain ⟨_, _, offset, hoffset, _, _, len, hlen, rfl⟩ := h
  exact ⟨lt_of_asNat? hoffset, lt_of_asNat? hlen⟩

namespace Expr

section Reading

variable {e : Expr} {es : List Expr} {fields : List (String × Expr)} {json kind : Json}
  {items : List Json} {s : Span} {bound : Nat}

/-- The tree is read from a value whose size is less than the bound. -/
def ReadBelow (bound : Nat) (e : Expr) : Prop :=
  ∃ json, sizeOf json < bound ∧ ofJson? json = some e

/-- A member of the content is smaller than the node. -/
theorem ReadBelow.of_part {parts : List String} {part name : String} {content value : Json}
    (hpart : content.part? parts part = some value) (h : ofJson? value = some e) :
    ReadBelow (sizeOf (Json.obj [(name, content)])) e :=
  ⟨value, Json.sizeOf_lt_only_of_part? name hpart, h⟩

/-- Each item of a list is read from a form that is smaller than the list. -/
theorem ReadBelow.of_listOfJson? (h : listOfJson? items = some es) (hbound : sizeOf items < bound) :
    ∀ e ∈ es, ReadBelow bound e := by
  induction items generalizing es with
  | nil =>
    rw [listOfJson?] at h
    cases h
    simp
  | cons item rest ih =>
    rw [listOfJson?] at h
    simp only [Option.bind_eq_bind, Option.bind_eq_some_iff, Option.some.injEq] at h
    obtain ⟨first, hfirst, others, hothers, rfl⟩ := h
    rw [List.cons.sizeOf_spec] at hbound
    have hrest := ih hothers (by omega)
    intro e he
    rcases List.mem_cons.1 he with rfl | he
    · exact ⟨item, by omega, hfirst⟩
    · exact hrest e he

/-- And the expression of each field, which stands behind its name. -/
theorem ReadBelow.of_fieldsOfJson? (h : fieldsOfJson? items = some fields)
    (hbound : sizeOf items < bound) : ∀ e ∈ fields.map Prod.snd, ReadBelow bound e := by
  induction items generalizing fields with
  | nil =>
    rw [fieldsOfJson?] at h
    cases h
    simp
  | cons item rest ih =>
    unfold fieldsOfJson? at h
    split at h
    · next heq => cases heq
    · next name value others heq =>
      cases heq
      simp only [Option.bind_eq_bind, Option.bind_eq_some_iff, Option.some.injEq] at h
      obtain ⟨first, hfirst, others, hothers, rfl⟩ := h
      simp only [List.cons.sizeOf_spec, Json.arr.sizeOf_spec] at hbound
      -- the bound is on the whole list, and so on its tail
      have hrest := ih hothers (by omega)
      intro e he
      rcases List.mem_cons.1 he with rfl | he
      · exact ⟨value, by omega, hfirst⟩
      · exact hrest e he
    · cases h

/-- A node that is read is no splice and has the span that it is read with, and its children are
read from smaller values. -/
theorem readBelow_of_ofKind? (h : ofKind? kind s = some e) :
    e.isInline = false ∧ e.span = s ∧ ∀ child ∈ e.children, ReadBelow (sizeOf kind) child := by
  unfold ofKind? at h
  split at h
  · cases h
    simp [isInline, span, children, parts]
  · next name content =>
    split at h
    -- A symbol.
    · simp only [Option.map_eq_some_iff] at h
      obtain ⟨name, -, rfl⟩ := h
      simp [isInline, span, children, parts]
    -- A call.
    · split at h
      · next hfunc hargs =>
        simp only [Option.bind_eq_bind, Option.bind_eq_some_iff, Option.some.injEq] at h
        obtain ⟨func, hfunc', args, hargs', rfl⟩ := h
        have hlt := Json.sizeOf_items_lt_only_of_part? "Call" hargs
        simpa [isInline, span, children, parts] using
          ⟨ReadBelow.of_part hfunc hfunc', ReadBelow.of_listOfJson? hargs' hlt⟩
      · cases h
    -- Parentheses.
    · simp only [Option.bind_eq_bind, Option.bind_eq_some_iff, Option.some.injEq] at h
      obtain ⟨inner, hinner, rfl⟩ := h
      have hread : ReadBelow _ inner := ⟨content, Json.sizeOf_lt_only "Paren" content, hinner⟩
      simpa [isInline, span, children, parts] using hread
    -- A block.
    · split at h
      · next items =>
        simp only [Option.map_eq_some_iff] at h
        obtain ⟨stmts, hstmts, rfl⟩ := h
        have hlt := Json.sizeOf_items_lt_only "Block" items
        exact ⟨rfl, rfl, ReadBelow.of_listOfJson? hstmts hlt⟩
      · cases h
    -- A list.
    · split at h
      · next items =>
        simp only [Option.map_eq_some_iff] at h
        obtain ⟨es, hes, rfl⟩ := h
        have hlt := Json.sizeOf_items_lt_only "List" items
        exact ⟨rfl, rfl, ReadBelow.of_listOfJson? hes hlt⟩
      · cases h
    -- A record.
    · split at h
      · next items =>
        simp only [Option.map_eq_some_iff] at h
        obtain ⟨fields, hfields, rfl⟩ := h
        have hlt := Json.sizeOf_items_lt_only "Record" items
        exact ⟨rfl, rfl, ReadBelow.of_fieldsOfJson? hfields hlt⟩
      · cases h
    -- A field.
    · split at h
      · next htarget =>
        simp only [Option.bind_eq_bind, Option.bind_eq_some_iff, Option.some.injEq] at h
        obtain ⟨target, htarget', _, _, _, _, rfl⟩ := h
        simpa [isInline, span, children, parts] using ReadBelow.of_part htarget htarget'
      · cases h
    -- A function.
    · split at h
      · next hbody =>
        simp only [Option.bind_eq_bind, Option.bind_eq_some_iff, Option.some.injEq] at h
        obtain ⟨_, _, _, _, body, hbody', rfl⟩ := h
        simpa [isInline, span, children] using ReadBelow.of_part hbody hbody'
      · cases h
    -- A conditional: with `null` or nothing as the alternative, or with a tree.
    · split at h
      · next hcond hyes _ =>
        simp only [Option.bind_eq_bind, Option.bind_eq_some_iff, Option.some.injEq] at h
        obtain ⟨cond, hcond', yes, hyes', rfl⟩ := h
        simpa [isInline, span, children, parts] using
          ⟨ReadBelow.of_part hcond hcond', ReadBelow.of_part hyes hyes'⟩
      · next hcond hyes _ =>
        simp only [Option.bind_eq_bind, Option.bind_eq_some_iff, Option.some.injEq] at h
        obtain ⟨cond, hcond', yes, hyes', rfl⟩ := h
        simpa [isInline, span, children, parts] using
          ⟨ReadBelow.of_part hcond hcond', ReadBelow.of_part hyes hyes'⟩
      · next _ _ hcond hyes hno =>
        simp only [Option.bind_eq_bind, Option.bind_eq_some_iff, Option.some.injEq] at h
        obtain ⟨cond, hcond', yes, hyes', no, hno', rfl⟩ := h
        simpa [isInline, span, children, parts] using
          ⟨ReadBelow.of_part hcond hcond', ReadBelow.of_part hyes hyes',
            ReadBelow.of_part hno hno'⟩
      · cases h
    -- An assignment.
    · split at h
      · next htarget hvalue =>
        simp only [Option.bind_eq_bind, Option.bind_eq_some_iff, Option.some.injEq] at h
        obtain ⟨target, htarget', value, hvalue', _, _, _, _, rfl⟩ := h
        simpa [isInline, span, children] using
          ⟨ReadBelow.of_part htarget htarget', ReadBelow.of_part hvalue hvalue'⟩
      · cases h
    -- A literal.
    · simp only [Option.map_eq_some_iff] at h
      obtain ⟨literal, -, rfl⟩ := h
      simp [isInline, span, children, parts]
  · cases h

/-- What holds of no node within range but splices holds nowhere in a tree that is read. -/
theorem not_has_of_ofJson? {test : Expr → Bool}
    (htest : ∀ e, e.isInline = false → e.span.Fits → test e = false)
    (h : ofJson? json = some e) : e.has test = false := by
  induction hsize : sizeOf json using Nat.strongRecOn generalizing json e with
  | ind size ih =>
    rw [ofJson?] at h
    split at h
    · next kind span hkind hspan =>
      simp only [Option.bind_eq_bind, Option.bind_eq_some_iff] at h
      obtain ⟨s, hs, h⟩ := h
      obtain ⟨hinline, rfl, hchildren⟩ := readBelow_of_ofKind? h
      have hself : test e = false := htest e hinline (Span.fits_of_ofJson? hs)
      rw [← Bool.not_eq_true, has_iff]
      rintro (hhas | ⟨child, hchild, hhas⟩)
      · rw [hself] at hhas
        cases hhas
      · obtain ⟨value, hlt, hvalue⟩ := hchildren child hchild
        have hbelow := Json.sizeOf_lt_of_part? hkind
        rw [ih (sizeOf value) (by omega) hvalue rfl] at hhas
        cases hhas
    · cases h

end Reading

/-! ### The codec -/

/-- A tree has a JSON form exactly if no value is spliced into it.  If no float occurs in it, it is
what its form is read as, and so is every such tree that is read from any JSON value. -/
theorem json_forms_are_faithful :
    (∀ e : Expr, (e.toJson?.isSome ↔ e.has isInline = false) ∧
      (e.has isFloat = false → e.has isOversized = false →
        ∀ json, e.toJson? = some json → ofJson? json = some e)) ∧
    ∀ (json : Json) (e : Expr), ofJson? json = some e → e.has isFloat = false →
      ∃ form, e.toJson? = some form ∧ ofJson? form = some e := by
  refine ⟨fun e => ⟨?_, fun hfloat hfits json h => ofJson?_toJson? hfloat hfits h⟩, ?_⟩
  · rw [isSome_toJson?, Bool.not_eq_true']
  · intro json e h hfloat
    have hinline : e.has isInline = false := not_has_of_ofJson? (fun _ h _ => h) h
    have hfits : e.has isOversized = false :=
      not_has_of_ofJson? (fun e _ h => by simp [isOversized, h]) h
    have hsome : e.toJson?.isSome := by
      rw [isSome_toJson?, hinline]
      rfl
    obtain ⟨form, hform⟩ := Option.isSome_iff_exists.1 hsome
    exact ⟨form, hform, ofJson?_toJson? hfloat hfits hform⟩

/-- The expression `if (true) 1`. -/
def oneIfTrue : Expr := ifThen (lit (.bool true) ⟨4, 4⟩) (lit (.int 1) ⟨10, 1⟩) ⟨0, 11⟩

/-- A JSON value for it that is not its form: no alternative, a span as a list, a member more. -/
def looseOneIfTrue : Json :=
  .obj [("span", .arr [.int 0, .int 11]), ("note", .null), ("kind", .obj [("If", .obj [
    ("then", nodeJson (.obj [("Int", .int 1)]) ⟨10, 1⟩),
    ("cond", nodeJson (.obj [("Bool", .bool true)]) ⟨4, 4⟩)])])]

theorem conditional_is_faithful :
    (oneIfTrue.toJson?.isSome ∧
      ∀ json, oneIfTrue.toJson? = some json → ofJson? json = some oneIfTrue) ∧
    ofJson? looseOneIfTrue = some oneIfTrue ∧
    ∃ form, oneIfTrue.toJson? = some form ∧ ofJson? form = some oneIfTrue := by
  obtain ⟨hforms, hread⟩ := json_forms_are_faithful
  have hloose : ofJson? looseOneIfTrue = some oneIfTrue := by
    simp [looseOneIfTrue, oneIfTrue, ofJson?, ofKind?, nodeJson, Literal.ofKind?, part?,
      Json.lookup?]
    rfl
  obtain ⟨hsome, hback⟩ := hforms oneIfTrue
  exact ⟨⟨hsome.2 (by decide), hback (by decide) (by decide)⟩, hloose,
    hread looseOneIfTrue oneIfTrue hloose (by decide)⟩

end Expr

end PipeLang
