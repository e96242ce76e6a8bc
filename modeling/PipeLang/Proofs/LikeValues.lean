import Mathlib.Data.List.Forall2
import PipeLang.Eval.Apply
import PipeLang.Proofs.Captured

/-!
# Values that are alike

Two runs of the interpreter that do the same need not come to equal values: a closure of the one
can have another body than the closure of the other in its place.  `Value.Like` says that two values
are equal but for their closures, and that these are related in pairs.  It also says which special
builtins the values hold and which names their records have, for those runs in which not all of them
come up.

What a program can find out about a value without calling it is the same of values that are alike:
how it is shown (`Value.Like.show_eq`), what it compares as (`Value.Like.same_eq`), and what the
builtins that only compute answer (`UnaryOp.answer_like`, `BinaryOp.answer_like`).  Values that are
alike and hold no closure are equal (`Value.Like.eq_of_closures_eq_nil`).
-/

namespace PipeLang

/-! ### Named entries -/

/-- The same names, and related entries under them. -/
def Fields.Alike {α β : Type} (R : α → β → Prop) (xs : Fields α) (ys : Fields β) : Prop :=
  List.Forall₂ (fun a b => a.1 = b.1 ∧ R a.2 b.2) xs ys

namespace Fields.Alike

variable {α β : Type} {R : α → β → Prop} {xs : Fields α} {ys : Fields β}

/-- Alike records have the same names. -/
theorem names_eq (h : Fields.Alike R xs ys) : xs.names = ys.names := by
  induction h with
  | nil => rfl
  | cons hentry _ ih => exact congrArg₂ List.cons hentry.1 ih

/-- Alike records offer alike values under each name. -/
theorem get? (h : Fields.Alike R xs ys) (name : String) :
    Option.Rel R (xs.get? name) (ys.get? name) := by
  induction h with
  | nil => exact .none
  | @cons a b _ _ hentry _ ih =>
    obtain ⟨key, v⟩ := a
    obtain ⟨_, w⟩ := b
    obtain ⟨rfl, hvalue⟩ := hentry
    rw [Fields.get?, Fields.get?]
    split
    · exact .some hvalue
    · exact ih

/-- They stay alike with alike values under one more name. -/
theorem insert (h : Fields.Alike R xs ys) (name : String) {v : α} {w : β} (hvalue : R v w) :
    Fields.Alike R (xs.insert name v) (ys.insert name w) := by
  induction h with
  | nil => exact .cons ⟨rfl, hvalue⟩ .nil
  | @cons a b rest rest' hentry hrest ih =>
    obtain ⟨key, old⟩ := a
    obtain ⟨_, old'⟩ := b
    obtain ⟨rfl, hold⟩ := hentry
    rw [Fields.insert, Fields.insert]
    split
    · exact .cons ⟨rfl, hvalue⟩ hrest
    · split
      · exact .cons ⟨rfl, hvalue⟩ (.cons ⟨rfl, hold⟩ hrest)
      · exact .cons ⟨rfl, hold⟩ ih

theorem ofList (h : Fields.Alike R xs ys) :
    Fields.Alike R (Fields.ofList xs) (Fields.ofList ys) := by
  have key : ∀ known known', Fields.Alike R known known' →
      Fields.Alike R (xs.foldl (fun fields entry => Fields.insert entry.1 entry.2 fields) known)
        (ys.foldl (fun fields entry => Fields.insert entry.1 entry.2 fields) known') := by
    induction h with
    | nil => exact fun _ _ h => h
    | @cons a b _ _ hentry _ ih =>
      intro known known' hknown
      obtain ⟨hname, hvalue⟩ := hentry
      rw [List.foldl_cons, List.foldl_cons, ← hname]
      exact ih _ _ (hknown.insert a.1 hvalue)
  exact key [] [] .nil

/-- Names in a row, with related entries. -/
theorem zip {names : List String} {as : List α} {bs : List β} (h : List.Forall₂ R as bs) :
    Fields.Alike R (names.zip as) (names.zip bs) := by
  induction h generalizing names with
  | nil => simp only [List.zip_nil_right]; exact .nil
  | cons hvalue _ ih =>
    cases names with
    | nil => exact .nil
    | cons name names => exact .cons ⟨rfl, hvalue⟩ ih

end Fields.Alike

/-! ### Values -/

/-- When values are to count as alike: how their closures are related, which special builtins they
may hold, and which names their records may have. -/
structure Likeness where
  closure : Closure → Closure → Prop
  special : Special → Prop := fun _ => True
  name : String → Prop := fun _ => True

/-- The values are equal but for their closures. -/
inductive Value.Like (l : Likeness) : Value → Value → Prop
  | null : Value.Like l .null .null
  | bool (b : Bool) : Value.Like l (.bool b) (.bool b)
  | int (n : Int64) : Value.Like l (.int n) (.int n)
  | float (x : Float) : Value.Like l (.float x) (.float x)
  | str (s : String) : Value.Like l (.str s) (.str s)
  | list {xs ys : List Value} (h : List.Forall₂ (Value.Like l) xs ys) :
      Value.Like l (.list xs) (.list ys)
  | record {xs ys : List (String × Value)} (hnames : xs.map Prod.fst = ys.map Prod.fst)
      (hall : ∀ name ∈ xs.map Prod.fst, l.name name)
      (h : List.Forall₂ (Value.Like l) (xs.map Prod.snd) (ys.map Prod.snd)) :
      Value.Like l (.record xs) (.record ys)
  /-- Related closures have the same identity and the same parameters. -/
  | closure {c d : Closure} (h : l.closure c d) (hid : c.id = d.id)
      (hparams : c.params = d.params) :
      Value.Like l (.closure c) (.closure d)
  | native (n : Native) : Value.Like l (.native n) (.native n)
  | special {s : Special} (h : l.special s) : Value.Like l (.special s) (.special s)
  | sequence (id : FunctionId) {xs ys : List Value} (h : List.Forall₂ (Value.Like l) xs ys) :
      Value.Like l (.sequence id xs) (.sequence id ys)

/-- The records are equal but for their closures. -/
structure Fields.Like (l : Likeness) (xs ys : Fields Value) : Prop where
  alike : Fields.Alike (Value.Like l) xs ys
  names : ∀ name ∈ xs.names, l.name name

/-- The values show the same, and are equal if they hold no closure. -/
structure Value.SameData (v w : Value) : Prop where
  shown : v.show = w.show
  eq : v.closures = [] → v = w

theorem Value.SameData.refl (v : Value) : v.SameData v := ⟨rfl, fun _ => rfl⟩

/-- To be alike is to have the same names and related values, in the same order. -/
theorem Fields.alike_iff {α β : Type} {R : α → β → Prop} {xs : Fields α} {ys : Fields β} :
    Fields.Alike R xs ys ↔
      xs.map Prod.fst = ys.map Prod.fst ∧ List.Forall₂ R (xs.map Prod.snd) (ys.map Prod.snd) := by
  constructor
  · intro h
    refine ⟨h.names_eq, ?_⟩
    rw [List.forall₂_map_left_iff, List.forall₂_map_right_iff]
    exact h.imp fun _ _ hentry => hentry.2
  · rintro ⟨hnames, h⟩
    rw [List.forall₂_map_left_iff, List.forall₂_map_right_iff] at h
    induction h with
    | nil => exact .nil
    | cons hvalue _ ih =>
      obtain ⟨hname, hrest⟩ := List.cons.inj hnames
      exact .cons ⟨hname, hvalue⟩ (ih hrest)

namespace Value

variable {l : Likeness}

theorem like_record_iff {xs ys : Fields Value} : Like l (record xs) (record ys) ↔ xs.Like l ys := by
  constructor
  · rintro (_ | _ | _ | _ | _ | _ | ⟨hnames, hall, h⟩)
    exact ⟨Fields.alike_iff.2 ⟨hnames, h⟩, hall⟩
  · rintro ⟨h, hall⟩
    obtain ⟨hnames, h⟩ := Fields.alike_iff.1 h
    exact .record hnames hall h

namespace Like

variable {v w a b a' b' : Value}

theorem kind_eq (h : Like l v w) : v.kind = w.kind := by cases h <;> rfl

/-! ### What values show -/

mutual

/-- A value shows its data and, of a function, its parameters and nothing of its code. -/
theorem showItem_eq : ∀ {v w : Value}, Like l v w → v.showItem = w.showItem
  | .list xs, _, .list h => by rw [showItem, showItem, showItems_eq h]
  | .record xs, _, .record hnames _ h => by rw [showItem, showItem, showFields_eq hnames h]
  | .closure c, _, .closure _ _ hparams => by rw [showItem, showItem, hparams]
  | .sequence id xs, _, .sequence _ h => by rw [showItem, showItem, h.length_eq]
  | .null, _, .null | .bool _, _, .bool _ | .int _, _, .int _ | .float _, _, .float _
  | .str _, _, .str _ | .native _, _, .native _ | .special _, _, .special _ => rfl

theorem showItems_eq :
    ∀ {xs ys : List Value}, List.Forall₂ (Like l) xs ys → showItems xs = showItems ys
  | [], _, .nil => rfl
  | v :: rest, _, .cons h hrest => by
    rw [showItems, showItems, showItem_eq h, showItems_eq hrest]

theorem showFields_eq : ∀ {xs ys : List (String × Value)}, xs.map Prod.fst = ys.map Prod.fst →
    List.Forall₂ (Like l) (xs.map Prod.snd) (ys.map Prod.snd) → showFields xs = showFields ys
  | [], [], _, _ => rfl
  | (m, v) :: rest, (n, w) :: rest', hnames, h => by
    cases h with
    | cons h hrest =>
      obtain ⟨rfl, htail⟩ : m = n ∧ rest.map Prod.fst = rest'.map Prod.fst := List.cons.inj hnames
      rw [showFields, showFields, showItem_eq h, showFields_eq htail hrest]

end

/-- Alike values are shown in the same way, a string without its quotes. -/
theorem show_eq (h : Like l v w) : v.show = w.show := by
  cases h with
  | str s => rfl
  | null | bool | int | float | native | special => rfl
  | list h => exact showItem_eq (.list h)
  | record hnames hall h => exact showItem_eq (.record hnames hall h)
  | closure h hid hparams => exact showItem_eq (.closure h hid hparams)
  | sequence id h => exact showItem_eq (.sequence id h)

/-! ### What values compare as -/

mutual

/-- What makes two values the same is their data, so alike values are the same as alike values. -/
theorem same_eq : ∀ {a b a' b' : Value}, Like l a a' → Like l b b' → a.same b = a'.same b'
  | .list xs, _, _, _, .list ha, hb => by
    cases hb with
    | list hb => rw [same, same, sameItems_eq ha hb]
    | _ => rfl
  | .record xs, _, _, _, .record hnames _ ha, hb => by
    cases hb with
    | record hnames' _ hb => rw [same, same, sameFields_eq hnames ha hnames' hb]
    | _ => rfl
  | .closure c, _, _, _, .closure _ hid _, hb => by
    cases hb with
    | closure _ hid' _ => rw [same, same, hid, hid']
    | _ => rfl
  | .sequence i xs, _, _, _, .sequence _ _, hb => by cases hb <;> rfl
  | .null, _, _, _, .null, hb | .bool _, _, _, _, .bool _, hb | .int _, _, _, _, .int _, hb
  | .float _, _, _, _, .float _, hb | .str _, _, _, _, .str _, hb
  | .native _, _, _, _, .native _, hb | .special _, _, _, _, .special _, hb => by
    cases hb <;> rfl

theorem sameItems_eq : ∀ {xs ys xs' ys' : List Value}, List.Forall₂ (Like l) xs xs' →
    List.Forall₂ (Like l) ys ys' → sameItems xs ys = sameItems xs' ys'
  | [], [], _, _, .nil, .nil => rfl
  | [], _ :: _, _, _, .nil, .cons _ _ => rfl
  | _ :: _, [], _, _, .cons _ _, .nil => rfl
  | x :: xs, y :: ys, _, _, .cons hx hxs, .cons hy hys => by
    rw [sameItems, sameItems, same_eq hx hy, sameItems_eq hxs hys]

theorem sameFields_eq : ∀ {xs ys xs' ys' : List (String × Value)},
    xs.map Prod.fst = xs'.map Prod.fst →
    List.Forall₂ (Like l) (xs.map Prod.snd) (xs'.map Prod.snd) →
    ys.map Prod.fst = ys'.map Prod.fst →
    List.Forall₂ (Like l) (ys.map Prod.snd) (ys'.map Prod.snd) →
    sameFields xs ys = sameFields xs' ys'
  | [], [], [], [], _, _, _, _ => rfl
  | [], _ :: _, [], _ :: _, _, _, _, _ => rfl
  | _ :: _, [], _ :: _, [], _, _, _, _ => rfl
  | (m, x) :: xs, (n, y) :: ys, (m', x') :: xs', (n', y') :: ys', hm, hx, hn, hy => by
    obtain ⟨rfl, hms⟩ : m = m' ∧ xs.map Prod.fst = xs'.map Prod.fst := List.cons.inj hm
    obtain ⟨rfl, hns⟩ : n = n' ∧ ys.map Prod.fst = ys'.map Prod.fst := List.cons.inj hn
    cases hx with
    | cons hx hxs =>
      cases hy with
      | cons hy hys => rw [sameFields, sameFields, same_eq hx hy, sameFields_eq hms hxs hns hys]

end

/-! ### Equal values -/

mutual

/-- Values are equal if their closures are. -/
theorem eq_of_closures : ∀ {v w : Value}, Like l v w →
    (∀ c ∈ v.closures, ∀ d, l.closure c d → c = d) → v = w
  | .list xs, _, .list h, hall => congrArg Value.list (eqItems_of_closures h hall)
  | .record xs, _, .record hnames _ h, hall =>
    congrArg Value.record (eqFields_of_closures hnames h hall)
  | .sequence id xs, _, .sequence _ h, hall =>
    congrArg (Value.sequence id) (eqItems_of_closures h hall)
  | .closure c, _, .closure h _ _, hall => congrArg Value.closure (hall c (by simp [closures]) _ h)
  | .null, _, .null, _ | .bool _, _, .bool _, _ | .int _, _, .int _, _
  | .float _, _, .float _, _ | .str _, _, .str _, _ | .native _, _, .native _, _
  | .special _, _, .special _, _ => rfl

theorem eqItems_of_closures : ∀ {xs ys : List Value}, List.Forall₂ (Like l) xs ys →
    (∀ c ∈ closuresOfItems xs, ∀ d, l.closure c d → c = d) → xs = ys
  | [], _, .nil, _ => rfl
  | v :: rest, _, .cons h hrest, hall => by
    rw [closuresOfItems, List.forall_mem_append] at hall
    rw [eq_of_closures h hall.1, eqItems_of_closures hrest hall.2]

theorem eqFields_of_closures : ∀ {xs ys : List (String × Value)},
    xs.map Prod.fst = ys.map Prod.fst →
    List.Forall₂ (Like l) (xs.map Prod.snd) (ys.map Prod.snd) →
    (∀ c ∈ closuresOfFields xs, ∀ d, l.closure c d → c = d) → xs = ys
  | [], [], _, _, _ => rfl
  | (m, v) :: rest, (n, w) :: rest', hnames, h, hall => by
    obtain ⟨rfl, htail⟩ : m = n ∧ rest.map Prod.fst = rest'.map Prod.fst := List.cons.inj hnames
    rw [closuresOfFields, List.forall_mem_append] at hall
    cases h with
    | cons h hrest =>
      have hvalue : v = w := eq_of_closures h hall.1
      rw [hvalue, eqFields_of_closures htail hrest hall.2]

end

/-- Values that are alike and hold no closure are equal. -/
theorem eq_of_closures_eq_nil (h : Like l v w) (hnone : v.closures = []) : v = w :=
  eq_of_closures h (by simp [hnone])

/-- Values that are alike have the same data. -/
theorem sameData (h : Like l v w) : v.SameData w := ⟨h.show_eq, h.eq_of_closures_eq_nil⟩

mutual

/-- The closures of values that are alike are related in pairs. -/
theorem closures_alike : ∀ {v w : Value}, Like l v w →
    List.Forall₂ l.closure v.closures w.closures
  | .list _, _, .list h => closuresOfItems_alike h
  | .record _, _, .record _ _ h => closuresOfFields_alike h
  | .sequence _ _, _, .sequence _ h => closuresOfItems_alike h
  | .closure _, _, .closure h _ _ => .cons h .nil
  | .null, _, .null | .bool _, _, .bool _ | .int _, _, .int _ | .float _, _, .float _
  | .str _, _, .str _ | .native _, _, .native _ | .special _, _, .special _ => .nil

theorem closuresOfItems_alike : ∀ {xs ys : List Value}, List.Forall₂ (Like l) xs ys →
    List.Forall₂ l.closure (closuresOfItems xs) (closuresOfItems ys)
  | [], _, .nil => .nil
  | _ :: _, _, .cons h hrest => List.rel_append (closures_alike h) (closuresOfItems_alike hrest)

theorem closuresOfFields_alike : ∀ {xs ys : List (String × Value)},
    List.Forall₂ (Like l) (xs.map Prod.snd) (ys.map Prod.snd) →
      List.Forall₂ l.closure (closuresOfFields xs) (closuresOfFields ys)
  | [], [], .nil => .nil
  | _ :: _, _ :: _, .cons h hrest =>
    List.rel_append (closures_alike h) (closuresOfFields_alike hrest)

end

mutual

/-- A value is like itself if its closures are related to themselves, where the special builtins
and the names of records do not matter. -/
theorem refl (hspecial : ∀ s, l.special s) (hname : ∀ name, l.name name) :
    ∀ {v : Value}, (∀ c ∈ v.closures, l.closure c c) → Like l v v
  | .list _, hall => .list (reflItems hspecial hname hall)
  | .record _, hall => .record rfl (fun name _ => hname name) (reflFields hspecial hname hall)
  | .sequence id _, hall => .sequence id (reflItems hspecial hname hall)
  | .closure c, hall => .closure (hall c (by simp [closures])) rfl rfl
  | .null, _ => .null
  | .bool b, _ => .bool b
  | .int n, _ => .int n
  | .float x, _ => .float x
  | .str s, _ => .str s
  | .native n, _ => .native n
  | .special s, _ => .special (hspecial s)

theorem reflItems (hspecial : ∀ s, l.special s) (hname : ∀ name, l.name name) :
    ∀ {xs : List Value}, (∀ c ∈ closuresOfItems xs, l.closure c c) →
      List.Forall₂ (Like l) xs xs
  | [], _ => .nil
  | v :: rest, hall => by
    rw [closuresOfItems, List.forall_mem_append] at hall
    exact .cons (refl hspecial hname hall.1) (reflItems hspecial hname hall.2)

theorem reflFields (hspecial : ∀ s, l.special s) (hname : ∀ name, l.name name) :
    ∀ {xs : List (String × Value)}, (∀ c ∈ closuresOfFields xs, l.closure c c) →
      List.Forall₂ (Like l) (xs.map Prod.snd) (xs.map Prod.snd)
  | [], _ => .nil
  | (_, v) :: rest, hall => by
    rw [closuresOfFields, List.forall_mem_append] at hall
    exact .cons (refl hspecial hname hall.1) (reflFields hspecial hname hall.2)

end

mutual

/-- What is alike stays so where more counts as alike. -/
theorem mono {m : Likeness} (hclosure : ∀ c d, l.closure c d → m.closure c d)
    (hspecial : ∀ s, l.special s → m.special s) (hname : ∀ name, l.name name → m.name name) :
    ∀ {v w : Value}, Like l v w → Like m v w
  | .list _, _, .list h => .list (monoItems hclosure hspecial hname h)
  | .record _, _, .record hnames hall h =>
    .record hnames (fun name hmem => hname name (hall name hmem))
      (monoFields hclosure hspecial hname hnames h)
  | .sequence id _, _, .sequence _ h => .sequence id (monoItems hclosure hspecial hname h)
  | .closure c, _, .closure h hid hparams => .closure (hclosure c _ h) hid hparams
  | .null, _, .null => .null
  | .bool b, _, .bool _ => .bool b
  | .int n, _, .int _ => .int n
  | .float x, _, .float _ => .float x
  | .str s, _, .str _ => .str s
  | .native n, _, .native _ => .native n
  | .special s, _, .special h => .special (hspecial s h)

theorem monoItems {m : Likeness} (hclosure : ∀ c d, l.closure c d → m.closure c d)
    (hspecial : ∀ s, l.special s → m.special s) (hname : ∀ name, l.name name → m.name name) :
    ∀ {xs ys : List Value}, List.Forall₂ (Like l) xs ys → List.Forall₂ (Like m) xs ys
  | [], _, .nil => .nil
  | _ :: _, _, .cons h hrest =>
    .cons (mono hclosure hspecial hname h) (monoItems hclosure hspecial hname hrest)

theorem monoFields {m : Likeness} (hclosure : ∀ c d, l.closure c d → m.closure c d)
    (hspecial : ∀ s, l.special s → m.special s) (hname : ∀ name, l.name name → m.name name) :
    ∀ {xs ys : List (String × Value)}, xs.map Prod.fst = ys.map Prod.fst →
      List.Forall₂ (Like l) (xs.map Prod.snd) (ys.map Prod.snd) →
      List.Forall₂ (Like m) (xs.map Prod.snd) (ys.map Prod.snd)
  | [], [], _, _ => .nil
  | (m, v) :: rest, (n, w) :: rest', hnames, h => by
    obtain ⟨-, htail⟩ : m = n ∧ rest.map Prod.fst = rest'.map Prod.fst := List.cons.inj hnames
    cases h with
    | cons h hrest =>
      exact .cons (mono hclosure hspecial hname h)
        (monoFields hclosure hspecial hname htail hrest)

end

end Like

/-! ### The content of values -/

end Value

/-- Two answers are results that fit together, or the same error. -/
inductive SameAnswer {α β : Type} (good : α → β → Prop) :
    Except EvalError α → Except EvalError β → Prop
  | ok {a : α} {b : β} (h : good a b) : SameAnswer good (.ok a) (.ok b)
  | error (e : EvalError) : SameAnswer good (.error e) (.error e)

namespace SameAnswer

variable {α β γ δ : Type} {good : α → β → Prop} {next : γ → δ → Prop}
  {x : Except EvalError α} {y : Except EvalError β}

/-- Computations on related answers have related answers, or the same error. -/
theorem bind (h : SameAnswer good x y) {f : α → Except EvalError γ} {g : β → Except EvalError δ}
    (hf : ∀ a b, good a b → SameAnswer next (f a) (g b)) :
    SameAnswer next (x >>= f) (y >>= g) := by
  cases h with
  | ok h => exact hf _ _ h
  | error e => exact .error e

/-- A function of related answers gives related answers. -/
theorem map (h : SameAnswer good x y) {f : α → γ} {g : β → δ}
    (hf : ∀ a b, good a b → next (f a) (g b)) : SameAnswer next (x.map f) (y.map g) := by
  cases h with
  | ok h => exact .ok (hf _ _ h)
  | error e => exact .error e

theorem of_eq {x y : Except EvalError α} (h : x = y) : SameAnswer Eq x y := by
  subst h
  cases x with
  | ok a => exact .ok rfl
  | error e => exact .error e

end SameAnswer

namespace Value.Like

variable {l : Likeness} {v w a b a' b' : Value}

theorem asBool_eq (h : Like l v w) : v.asBool = w.asBool := by cases h <;> rfl

theorem asInt_eq (h : Like l v w) : v.asInt = w.asInt := by cases h <;> rfl

/-- Alike values are both lists, of alike items, or neither is. -/
theorem asList (h : Like l v w) : SameAnswer (List.Forall₂ (Like l)) v.asList w.asList := by
  cases h with
  | list h => exact .ok h
  | null => exact .ok .nil
  | _ => exact .error _

/-- They are both records, of alike fields, or neither is. -/
theorem asRecord (h : Like l v w) : SameAnswer (Fields.Like l) v.asRecord w.asRecord := by
  cases h with
  | record hnames hall h => exact .ok (like_record_iff.1 (.record hnames hall h))
  | _ => exact .error _

theorem asSequence (h : Like l v w) :
    SameAnswer (List.Forall₂ (Like l)) v.asSequence w.asSequence := by
  cases h with
  | sequence id h => exact .ok h
  | _ => exact .error _

theorem size_eq (h : Like l v w) : v.size = w.size := by
  cases h with
  | list h => exact congrArg Except.ok h.length_eq
  | sequence id h => exact congrArg Except.ok h.length_eq
  | record hnames =>
    have hlength := congrArg List.length hnames
    rw [List.length_map, List.length_map] at hlength
    exact congrArg Except.ok hlength
  | _ => rfl

/-- The steps of a sequence, or the items of a list. -/
theorem stepsOf (h : Like l v w) :
    SameAnswer (List.Forall₂ (Like l)) (Evaluator.stepsOf v) (Evaluator.stepsOf w) := by
  cases h with
  | sequence id h => exact .ok h
  | list h => exact .ok h
  | null => exact .ok .nil
  | _ => exact .error _

/-! ### Numbers and order -/

theorem operands_eq (ha : Like l a a') (hb : Like l b b') (op : String) :
    Operands.ofValues op a b = Operands.ofValues op a' b' := by
  cases ha <;> cases hb <;> rfl

/-- An integer that is in range is like itself. -/
theorem exact (fault : TypeFault) (n : Int) :
    SameAnswer (Like l) (PipeLang.exact fault n) (PipeLang.exact fault n) := by
  unfold PipeLang.exact
  split
  · exact .ok (.int _)
  · exact .error _

/-- Arithmetic is about numbers, of which there is one that a number is like. -/
theorem arithmetic (ha : Like l a a') (hb : Like l b b') (op : String) (onInts : Int → Int → Int)
    (onFloats : Float → Float → Float) :
    SameAnswer (Like l) (PipeLang.arithmetic op onInts onFloats a b)
      (PipeLang.arithmetic op onInts onFloats a' b') := by
  unfold PipeLang.arithmetic
  refine SameAnswer.bind (.of_eq (operands_eq ha hb op)) ?_
  rintro (⟨x, y⟩ | ⟨x, y⟩) _ rfl
  · exact exact _ _
  · exact .ok (.float _)

theorem divide (ha : Like l a a') (hb : Like l b b') :
    SameAnswer (Like l) (PipeLang.divide a b) (PipeLang.divide a' b') := by
  unfold PipeLang.divide
  refine SameAnswer.bind (.of_eq (operands_eq ha hb "/")) ?_
  rintro (⟨x, y⟩ | ⟨x, y⟩) _ rfl
  · dsimp only
    split
    · exact .error _
    · exact exact _ _
  · exact .ok (.float _)

theorem negate (h : Like l v w) : SameAnswer (Like l) (PipeLang.negate v) (PipeLang.negate w) := by
  cases h with
  | int n => exact exact _ _
  | float x => exact .ok (.float _)
  | _ => exact .error _

/-- A sum is made of the same numbers, or fails at the same item. -/
theorem sumItems {xs ys : List Value} (h : List.Forall₂ (Like l) xs ys) :
    SameAnswer (Like l) (PipeLang.sumItems xs) (PipeLang.sumItems ys) := by
  have key : ∀ v w, Like l v w → SameAnswer (Like l)
      (xs.foldlM (PipeLang.arithmetic "sum" (· + ·) (· + ·)) v)
      (ys.foldlM (PipeLang.arithmetic "sum" (· + ·) (· + ·)) w) := by
    induction h with
    | nil => exact fun _ _ h => .ok h
    | cons hitem _ ih =>
      intro v w hvw
      rw [List.foldlM_cons, List.foldlM_cons]
      exact SameAnswer.bind (hvw.arithmetic hitem _ _ _) ih
  exact key _ _ (.int 0)

/-- Alike values are ordered in the same way, or equally unordered. -/
theorem isOrdered (ha : Like l a a') (hb : Like l b b') (op : String) (wanted : Ordering → Bool) :
    SameAnswer (Like l) (PipeLang.isOrdered op wanted a b)
      (PipeLang.isOrdered op wanted a' b') := by
  have hcompare : compareValues op a b = compareValues op a' b' := by
    cases ha <;> cases hb <;> rfl
  refine SameAnswer.map (.of_eq hcompare) ?_
  rintro order _ rfl
  exact .bool _

/-! ### Parts of values -/

/-- At the same position there are alike items, or none in either list. -/
theorem nthItem {xs ys : List Value} (h : List.Forall₂ (Like l) xs ys) (position : Int64) :
    SameAnswer (Like l) (PipeLang.nthItem xs position) (PipeLang.nthItem ys position) := by
  have hget : ∀ k : Nat, Option.Rel (Like l) xs[k]? ys[k]? := by
    intro k
    induction h generalizing k with
    | nil => exact .none
    | cons hitem _ ih =>
      cases k with
      | zero => exact .some hitem
      | succ k => simpa using ih k
  unfold PipeLang.nthItem
  rw [h.length_eq]
  dsimp only
  split
  · have hitem := hget (position.toInt.toNat - 1)
    generalize xs[position.toInt.toNat - 1]? = x at hitem ⊢
    generalize ys[position.toInt.toNat - 1]? = y at hitem ⊢
    cases hitem with
    | none => exact .error _
    | some hitem => exact .ok hitem
  · exact .error _

/-- A field that is missing is null in both. -/
theorem fieldOf {xs ys : Fields Value} (h : xs.Like l ys) (name : String) :
    Like l (PipeLang.fieldOf xs name) (PipeLang.fieldOf ys name) := by
  have hget := h.alike.get? name
  unfold PipeLang.fieldOf
  generalize xs.get? name = x at hget ⊢
  generalize ys.get? name = y at hget ⊢
  cases hget with
  | none => exact .null
  | some hvalue => exact hvalue

end Value.Like

/-! ### Answers of builtins -/

section

variable {l : Likeness} {v w a b a' b' : Value}

/-- The answers to values that are alike are alike. -/
theorem UnaryOp.answer_like (op : UnaryOp) (h : v.Like l w) :
    SameAnswer (Value.Like l) (op.answer v) (op.answer w) := by
  -- an answer depends on the data alone, or is made of parts of the operands
  cases op with
  | neg => exact h.negate
  | not =>
    refine SameAnswer.map (.of_eq h.asBool_eq) ?_
    rintro truth _ rfl
    exact .bool _
  | identity => exact .ok h
  | stop =>
    rw [answer, answer, h.show_eq]
    exact .error _
  | isNull =>
    rw [answer, answer, h.kind_eq]
    exact .ok (.bool _)
  | length =>
    refine SameAnswer.map (.of_eq h.size_eq) ?_
    rintro n _ rfl
    exact .int _
  | sum => exact SameAnswer.bind h.asList fun _ _ hitems => Value.Like.sumItems hitems
  | rev => exact SameAnswer.map h.asList fun _ _ hitems => .list (List.rel_reverse hitems)
  | names =>
    refine SameAnswer.map h.asRecord fun xs ys hfields => ?_
    rw [hfields.alike.names_eq]
    exact .list (List.forall₂_map_left_iff.2 (List.forall₂_map_right_iff.2
      (List.forall₂_same.2 fun name _ => .str name)))
  | functions => exact SameAnswer.map h.asSequence fun _ _ hsteps => .list hsteps

theorem BinaryOp.answer_like (op : BinaryOp) (ha : a.Like l a') (hb : b.Like l b') :
    SameAnswer (Value.Like l) (op.answer a b) (op.answer a' b') := by
  have hint := SameAnswer.of_eq hb.asInt_eq
  cases op with
  | add | sub | mul => exact ha.arithmetic hb _ _ _
  | div => exact ha.divide hb
  | eq | ne =>
    rw [answer, answer, ha.same_eq hb]
    exact .ok (.bool _)
  | lt | le | gt | ge => exact ha.isOrdered hb _ _
  | head =>
    refine SameAnswer.bind ha.asList fun _ _ hitems => SameAnswer.bind hint ?_
    rintro count _ rfl
    exact .ok (.list (List.forall₂_take _ hitems))
  | nth =>
    refine SameAnswer.bind ha.asList fun _ _ hitems => SameAnswer.bind hint ?_
    rintro position _ rfl
    exact Value.Like.nthItem hitems position
  | seq =>
    refine SameAnswer.bind (.of_eq ha.asInt_eq) ?_
    rintro first _ rfl
    refine SameAnswer.bind hint ?_
    rintro last _ rfl
    exact .ok (.list (List.forall₂_map_left_iff.2 (List.forall₂_map_right_iff.2
      (List.forall₂_same.2 fun n _ => .int _))))
  | get =>
    cases hb with
    | str name => exact SameAnswer.map ha.asRecord fun _ _ hfields => .fieldOf hfields name
    | _ => exact .error _

end

end PipeLang
