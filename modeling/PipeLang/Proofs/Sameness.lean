import Mathlib
import PipeLang.Proofs.LikeValues
import PipeLang.Proofs.WholeFloats

/-!
# Sameness of values is nearly an equivalence

Values are the same if they have the same parts and their numbers compare equal, an integer and a
float as floats (`Value.Same`, `Value.same_iff`).  That is symmetric (`Value.same_comm`), and a
value is the same as itself unless there is a NaN in it (`Value.same_self_iff`).

It is not always transitive.  An integer of more than 53 bits is rounded when it is compared with a
float, and so a float can be the same as two different integers.  Where the second of three values
has a float between two such integers, it straddles them (`Value.Straddled`), and this is all that
transitivity fails for (`Value.Same.trans_iff`).

Two records are the same if they have the same names and the same under each name
(`same_record_iff_get?`), and it does not matter in which order their fields were written
(`Fields.ofList_perm`).  `sameness_laws` puts everything together.
-/

namespace PipeLang

namespace Value

/-! ### What there is in a value -/

/-- Induction on values, in which a record has the parts of the list of its values. -/
theorem nested_induction {P : Value → Prop}
    (list : ∀ items, (∀ v ∈ items, P v) → P (.list items))
    (record : ∀ fields, P (.list (fields.map Prod.snd)) → P (.record fields))
    (plain : ∀ v : Value, v.kind ≠ .list → v.kind ≠ .record → P v) : ∀ v, P v
  | .list items => list items fun v hv =>
    have : sizeOf v < sizeOf items := List.sizeOf_lt_of_mem hv
    nested_induction list record plain v
  | .record fields => record fields <| list _ fun v hv =>
    have : sizeOf v < sizeOf fields := by
      obtain ⟨⟨name, v⟩, hmem, rfl⟩ := List.mem_map.1 hv
      have hlt : sizeOf (name, v) < sizeOf fields := List.sizeOf_lt_of_mem hmem
      rw [Prod.mk.sizeOf_spec] at hlt
      exact Nat.lt_of_le_of_lt (Nat.le_add_left _ _) hlt
    nested_induction list record plain v
  | .null | .bool _ | .int _ | .float _ | .str _ | .closure _ | .native _ | .special _
  | .sequence .. => plain _ (by rintro ⟨⟩) (by rintro ⟨⟩)
decreasing_by
  · rw [Value.list.sizeOf_spec]
    omega
  · rw [Value.record.sizeOf_spec]
    omega

/-- There is a NaN in the value. -/
inductive HasNaN : Value → Prop
  | float {x : Float} (h : x.isNaN = true) : HasNaN (.float x)
  | item {items : List Value} {v : Value} (hmem : v ∈ items) (h : HasNaN v) : HasNaN (.list items)
  | field {fields : List (String × Value)} (h : HasNaN (.list (fields.map Prod.snd))) :
      HasNaN (.record fields)

/-- The values are the same. -/
inductive Same : Value → Value → Prop
  | null : Same .null .null
  | bool (b : Bool) : Same (.bool b) (.bool b)
  | int (n : Int64) : Same (.int n) (.int n)
  | float {x y : Float} (h : (x == y) = true) : Same (.float x) (.float y)
  | intFloat {n : Int64} {x : Float} (h : (floatOfInt n == x) = true) : Same (.int n) (.float x)
  | floatInt {n : Int64} {x : Float} (h : (floatOfInt n == x) = true) : Same (.float x) (.int n)
  | str (s : String) : Same (.str s) (.str s)
  | list {xs ys : List Value} (hlength : xs.length = ys.length)
      (h : ∀ (i : Nat) x y, xs[i]? = some x → ys[i]? = some y → Same x y) :
      Same (.list xs) (.list ys)
  | record {xs ys : List (String × Value)} (hnames : xs.map Prod.fst = ys.map Prod.fst)
      (h : Same (.list (xs.map Prod.snd)) (.list (ys.map Prod.snd))) :
      Same (.record xs) (.record ys)
  | closure {c d : Closure} (h : c.id = d.id) : Same (.closure c) (.closure d)
  | native (n : Native) : Same (.native n) (.native n)
  | special (s : Special) : Same (.special s) (.special s)
  | sequence (id : FunctionId) (steps steps' : List Value) :
      Same (.sequence id steps) (.sequence id steps')

theorem sameItems_iff_forall₂ {xs ys : List Value} : sameItems xs ys = true ↔
    List.Forall₂ (fun x y => x.same y = true) xs ys := by
  induction xs generalizing ys with
  | nil => cases ys <;> simp [sameItems]
  | cons x xs ih => cases ys <;> simp [sameItems, ih]

theorem sameItems_iff {xs ys : List Value} : sameItems xs ys = true ↔
    xs.length = ys.length ∧
      ∀ (i : Nat) x y, xs[i]? = some x → ys[i]? = some y → x.same y = true := by
  rw [sameItems_iff_forall₂, List.forall₂_iff_get]
  refine and_congr_right fun _ => ⟨fun h i x y hx hy => ?_, fun h i hx hy => ?_⟩
  · obtain ⟨hi, rfl⟩ := List.getElem?_eq_some_iff.1 hx
    obtain ⟨hi', rfl⟩ := List.getElem?_eq_some_iff.1 hy
    exact h i hi hi'
  · exact h i _ _ (List.getElem?_eq_getElem hx) (List.getElem?_eq_getElem hy)

theorem sameFields_iff {xs ys : List (String × Value)} : sameFields xs ys = true ↔
    xs.map Prod.fst = ys.map Prod.fst ∧
      sameItems (xs.map Prod.snd) (ys.map Prod.snd) = true := by
  induction xs generalizing ys with
  | nil => cases ys <;> simp [sameFields, sameItems]
  | cons entry xs ih =>
    cases ys with
    | nil => simp [sameFields]
    | cons entry' ys => simp [sameFields, sameItems, ih, and_assoc, and_left_comm]

/-- Values that are the same have one shape, and are the same in their parts. -/
theorem Same.of_same {a b : Value} (h : a.same b = true) : Same a b := by
  induction a using nested_induction generalizing b with
  | list items ih =>
    cases b with
    | list =>
      obtain ⟨hlength, hitems⟩ := sameItems_iff.1 h
      exact .list hlength fun i x y hx hy =>
        ih x (List.mem_of_getElem? hx) (hitems i x y hx hy)
    | _ => cases h
  | record fields ih =>
    cases b with
    | record =>
      obtain ⟨hnames, hvalues⟩ := sameFields_iff.1 h
      exact .record hnames (ih hvalues)
    | _ => cases h
  -- values without items; only numbers of the two kinds may differ in their kind
  | plain a hlist hrecord =>
    cases a with
    | list => exact absurd rfl hlist
    | record => exact absurd rfl hrecord
    | null => cases b with | null => exact .null | _ => cases h
    | bool v => cases b with | bool => exact eq_of_beq h ▸ .bool v | _ => cases h
    | int n =>
      cases b with
      | int => exact eq_of_beq h ▸ .int n
      | float => exact .intFloat h
      | _ => cases h
    | float x =>
      cases b with
      | int => exact .floatInt h
      | float => exact .float h
      | _ => cases h
    | str s => cases b with | str => exact eq_of_beq h ▸ .str s | _ => cases h
    | closure c => cases b with | closure => exact .closure (eq_of_beq h) | _ => cases h
    | native n => cases b with | native => exact eq_of_beq h ▸ .native n | _ => cases h
    | special s => cases b with | special => exact eq_of_beq h ▸ .special s | _ => cases h
    | sequence id steps =>
      cases b with
      | sequence id' steps' => exact eq_of_beq h ▸ .sequence id steps steps'
      | _ => cases h

theorem Same.same {a b : Value} (h : Same a b) : a.same b = true := by
  induction h with
  | list hlength _ ih => exact sameItems_iff.2 ⟨hlength, ih⟩
  | record hnames _ ih => exact sameFields_iff.2 ⟨hnames, ih⟩
  | float h | intFloat h | floatInt h => exact h
  | closure h => exact beq_iff_eq.2 h
  | null => rfl
  | _ => exact beq_self_eq_true _

theorem same_iff {a b : Value} : a.same b = true ↔ Same a b := ⟨.of_same, Same.same⟩

/-! ### The laws -/

theorem Same.symm {a b : Value} (h : Same a b) : Same b a := by
  induction h with
  | null => exact .null
  | bool b => exact .bool b
  | int n => exact .int n
  | float h => exact .float (BEq.symm h)
  | intFloat h => exact .floatInt h
  | floatInt h => exact .intFloat h
  | str s => exact .str s
  | list hlength _ ih => exact .list hlength.symm fun i y x hy hx => ih i x y hx hy
  | record hnames _ ih => exact .record hnames.symm ih
  | closure h => exact .closure h.symm
  | native n => exact .native n
  | special s => exact .special s
  | sequence id steps steps' => exact .sequence id steps' steps

theorem same_comm (a b : Value) : a.same b = b.same a := by
  rw [Bool.eq_iff_iff, same_iff, same_iff]
  exact ⟨Same.symm, Same.symm⟩

/-- A value is the same as itself exactly if it has no NaN anywhere. -/
theorem same_self_iff (a : Value) : a.same a = true ↔ ¬ a.HasNaN := by
  induction a using nested_induction with
  | list items ih =>
    have hitems : (list items).same (.list items) = true ↔ ∀ v ∈ items, v.same v = true := by
      show sameItems items items = true ↔ _
      rw [sameItems_iff]
      constructor
      · rintro ⟨-, h⟩ v hv
        obtain ⟨i, hi⟩ := List.getElem?_of_mem hv
        exact h i v v hi hi
      · refine fun h => ⟨rfl, fun i v w hv hw => ?_⟩
        obtain rfl : v = w := Option.some.inj (hv.symm.trans hw)
        exact h v (List.mem_of_getElem? hv)
    rw [hitems]
    constructor
    · rintro h (_ | ⟨hv, hnan⟩)
      exact (ih _ hv).1 (h _ hv) hnan
    · exact fun h v hv => (ih v hv).2 fun hnan => h (.item hv hnan)
  | record fields ih =>
    -- the fields of a record are compared as the items of a list are
    have hfields : (record fields).same (.record fields) = true ↔
        (list (fields.map Prod.snd)).same (.list (fields.map Prod.snd)) = true :=
      sameFields_iff.trans (and_iff_right rfl)
    rw [hfields, ih]
    exact not_congr ⟨.field, fun | .field h => h⟩
  | plain a hlist hrecord =>
    cases a with
    | list => exact absurd rfl hlist
    | record => exact absurd rfl hrecord
    | float x =>
      have hnan : x = Float.nan ↔ x.isNaN = true := by
        rw [Float.isNaN_eq_decide_eq_nan, decide_eq_true_eq]
      exact Float.beq_self_iff.trans (not_congr (hnan.trans ⟨.float, fun | .float h => h⟩))
    | null => exact iff_of_true rfl (by rintro ⟨⟩)
    | _ => exact iff_of_true (beq_self_eq_true _) (by rintro ⟨⟩)

/-- At some place the second value has a float, and the first and the third have two different
integers that are the same as it. -/
inductive Straddled : Value → Value → Value → Prop
  | numbers {m n : Int64} {x : Float} (hne : m ≠ n) (hm : (floatOfInt m == x) = true)
      (hn : (floatOfInt n == x) = true) : Straddled (.int m) (.float x) (.int n)
  | item {xs ys zs : List Value} {a b c : Value} (i : Nat) (ha : xs[i]? = some a)
      (hb : ys[i]? = some b) (hc : zs[i]? = some c) (h : Straddled a b c) :
      Straddled (.list xs) (.list ys) (.list zs)
  | field {xs ys zs : List (String × Value)}
      (h : Straddled (.list (xs.map Prod.snd)) (.list (ys.map Prod.snd))
        (.list (zs.map Prod.snd))) :
      Straddled (.record xs) (.record ys) (.record zs)

/-- Transitivity fails where an integer is rounded, and nowhere else. -/
theorem Same.trans_iff {a b c : Value} (hab : Same a b) (hbc : Same b c) :
    Same a c ↔ ¬ Straddled a b c := by
  induction hab generalizing c with
  | null | bool | int | str | native | special => exact iff_of_true hbc (by rintro ⟨⟩)
  | float h =>
    cases hbc with
    | float h' => exact iff_of_true (.float (BEq.trans h h')) (by rintro ⟨⟩)
    | floatInt h' =>
      exact iff_of_true (.floatInt (BEq.trans h' (BEq.symm h))) (by rintro ⟨⟩)
  | intFloat h =>
    cases hbc with
    | float h' => exact iff_of_true (.intFloat (BEq.trans h h')) (by rintro ⟨⟩)
    | floatInt h' =>
      -- the float between two integers: they are the same only if they are equal
      constructor
      · rintro ⟨⟩ (hstraddled | _ | _)
        exact hstraddled rfl
      · intro hnot
        obtain rfl := Decidable.not_not.1 fun hne => hnot (.numbers hne h h')
        exact .int _
  | floatInt h =>
    cases hbc with
    | int => exact iff_of_true (.floatInt h) (by rintro ⟨⟩)
    | intFloat h' =>
      exact iff_of_true (.float (BEq.trans (BEq.symm h) h')) (by rintro ⟨⟩)
  | list hlength h ih =>
    cases hbc with
    | @list ys zs hlength' h' =>
      constructor
      · intro hac hstraddled
        cases hac with
        | list _ hac =>
          cases hstraddled with
          | item i hx hy hz hstraddled =>
            exact (ih i _ _ hx hy (h' i _ _ hy hz)).1 (hac i _ _ hx hz) hstraddled
      · intro hnot
        refine .list (hlength.trans hlength') fun i x z hx hz => ?_
        obtain ⟨hlt, -⟩ := List.getElem?_eq_some_iff.1 hz
        have hy := List.getElem?_eq_getElem (hlength'.symm ▸ hlt)
        exact (ih i x _ hx hy (h' i _ z hy hz)).2 fun hstraddled =>
          hnot (.item i hx hy hz hstraddled)
  | record hnames _ ih =>
    cases hbc with
    | record hnames' h =>
      constructor
      · intro hac hstraddled
        cases hac with
        | record _ hac =>
          cases hstraddled with
          | field hstraddled => exact (ih h).1 hac hstraddled
      · intro hnot
        exact .record (hnames.trans hnames') ((ih h).2 fun hstraddled => hnot (.field hstraddled))
  | closure h =>
    cases hbc with
    | closure h' => exact iff_of_true (.closure (h.trans h')) (by rintro ⟨⟩)
  | sequence =>
    cases hbc with
    | sequence => exact iff_of_true (.sequence _ _ _) (by rintro ⟨⟩)

end Value

/-! ### Records -/

namespace Fields

variable {α β : Type} {R : α → β → Prop}

theorem get?_of_forall_lt {name : String} {fields : Fields α}
    (h : ∀ entry ∈ fields, name < entry.1) : fields.get? name = none := by
  induction fields with
  | nil => rfl
  | cons entry rest ih =>
    obtain ⟨hentry, hrest⟩ := List.forall_mem_cons.1 h
    rw [get?, if_neg fun heq : entry.1 = name => String.lt_irrefl name (heq ▸ hentry)]
    exact ih hrest

theorem Ordered.get?_of_lt {name key : String} {v : α} {rest : Fields α}
    (h : Ordered ((key, v) :: rest)) (hlt : name < key) :
    get? name ((key, v) :: rest) = none := by
  obtain ⟨hfirst, -⟩ := List.pairwise_cons.1 h
  exact get?_of_forall_lt <| List.forall_mem_cons.2
    ⟨hlt, fun entry hentry => String.lt_trans hlt (hfirst entry hentry)⟩

/-- Entries in order are determined by what is found under each name. -/
theorem Ordered.alike_iff {xs : Fields α} {ys : Fields β} (hxs : xs.Ordered) (hys : ys.Ordered) :
    Fields.Alike R xs ys ↔ ∀ name, Option.Rel R (xs.get? name) (ys.get? name) := by
  refine ⟨Alike.get?, fun h => ?_⟩
  induction xs generalizing ys with
  | nil =>
    cases ys with
    | nil => exact .nil
    | cons entry ys =>
      have hfirst := h entry.1
      rw [get?, get?, if_pos rfl] at hfirst
      cases hfirst
  | cons entry xs ih =>
    obtain ⟨key, v⟩ := entry
    obtain ⟨hfirst, hrest⟩ := List.pairwise_cons.1 hxs
    cases ys with
    | nil =>
      have hkey := h key
      rw [get?, get?, if_pos rfl] at hkey
      cases hkey
    | cons entry' ys =>
      obtain ⟨key', w⟩ := entry'
      obtain ⟨hfirst', hrest'⟩ := List.pairwise_cons.1 hys
      have hkey : key = key' := by
        -- the smaller name would be missing in the other list
        by_cases hlt : key < key'
        · have hnone := h key
          rw [hys.get?_of_lt hlt, get?, if_pos rfl] at hnone
          cases hnone
        by_cases hgt : key' < key
        · have hnone := h key'
          rw [hxs.get?_of_lt hgt, get?, if_pos rfl] at hnone
          cases hnone
        exact String.le_antisymm (String.not_lt.1 hgt) (String.not_lt.1 hlt)
      subst hkey
      refine .cons ⟨rfl, ?_⟩ (ih hrest hrest' fun name => ?_)
      · have hvalue := h key
        rw [get?, get?, if_pos rfl, if_pos rfl] at hvalue
        cases hvalue with
        | some hvalue => exact hvalue
      · by_cases hname : key = name
        · subst hname
          rw [get?_of_forall_lt hfirst, get?_of_forall_lt hfirst']
          exact .none
        · have hvalue := h name
          rwa [get?, get?, if_neg hname, if_neg hname] at hvalue

theorem Ordered.ext {xs ys : Fields α} (hxs : xs.Ordered) (hys : ys.Ordered)
    (h : ∀ name, xs.get? name = ys.get? name) : xs = ys := by
  have halike : Fields.Alike Eq xs ys := (hxs.alike_iff hys).2 fun name => by
    rw [h name]
    cases ys.get? name with
    | none => exact .none
    | some v => exact .some rfl
  have heq : List.Forall₂ Eq xs ys := halike.imp fun a b hab => Prod.ext hab.1 hab.2
  rwa [List.forall₂_eq_eq_eq] at heq

theorem ordered_ofList (entries : List (String × α)) : (ofList entries).Ordered := by
  have key : ∀ (entries : List (String × α)) (fields : Fields α), fields.Ordered →
      Ordered (entries.foldl (fun fields entry => insert entry.1 entry.2 fields) fields) := by
    intro entries
    induction entries with
    | nil => exact fun _ h => h
    | cons entry rest ih => exact fun _ h => ih _ (h.insert _ _)
  exact key entries [] List.Pairwise.nil

theorem get?_ofList_eq_some_iff {entries : List (String × α)}
    (hnodup : (entries.map Prod.fst).Nodup) {name : String} {v : α} :
    (ofList entries).get? name = some v ↔ (name, v) ∈ entries :=
  ⟨fun h => mem_of_mem_ofList (mem_of_get? h), get?_ofList hnodup⟩

/-- Fields are the same in whatever order they are written. -/
theorem ofList_perm {written written' : List (String × α)} (hperm : written.Perm written')
    (hnodup : (written.map Prod.fst).Nodup) : ofList written = ofList written' := by
  have hnodup' : (written'.map Prod.fst).Nodup := (hperm.map Prod.fst).nodup_iff.1 hnodup
  refine (ordered_ofList written).ext (ordered_ofList written') fun name => Option.ext fun v => ?_
  rw [get?_ofList_eq_some_iff hnodup, get?_ofList_eq_some_iff hnodup', hperm.mem_iff]

end Fields

namespace Value

/-- Records are the same if the same names have the same values. -/
theorem same_record_iff_get? {xs ys : Fields Value} (hxs : xs.Ordered) (hys : ys.Ordered) :
    (record xs).same (.record ys) = true ↔
      ∀ name, Option.Rel (fun x y => x.same y = true) (xs.get? name) (ys.get? name) := by
  rw [← hxs.alike_iff hys, Fields.alike_iff, ← sameItems_iff_forall₂]
  exact sameFields_iff

end Value

/-! ### All together -/

/-- Sameness is symmetric.  It is transitive but for floats that straddle different integers, of
which one has more than 53 bits then.  A value is the same as itself unless there is a NaN in it.
Records are the same if they have the same names and the same under each name; in which order the
fields of a record are written does not matter. -/
theorem sameness_laws :
    (∀ a b : Value, a.same b = b.same a) ∧
    (∀ a b c : Value, a.same b = true → b.same c = true →
      (a.same c = true ↔ ¬ Value.Straddled a b c)) ∧
    (∀ (m n : Int64) (x : Float), Value.Straddled (.int m) (.float x) (.int n) →
      9007199254740992 ≤ m.toInt.natAbs ∨ 9007199254740992 ≤ n.toInt.natAbs) ∧
    (∀ a : Value, a.same a = true ↔ ¬ a.HasNaN) ∧
    (∀ xs ys : Fields Value, xs.Ordered → ys.Ordered →
      ((Value.record xs).same (.record ys) = true ↔
        ∀ name, Option.Rel (fun x y => x.same y = true) (xs.get? name) (ys.get? name))) ∧
    ∀ written : List (String × Value), (Fields.ofList written).Ordered ∧
      ∀ written', written.Perm written' → (written.map Prod.fst).Nodup →
        Fields.ofList written = Fields.ofList written' := by
  refine ⟨Value.same_comm, fun a b c hab hbc => ?_, fun m n x h => ?_, Value.same_self_iff,
    fun xs ys hxs hys => Value.same_record_iff_get? hxs hys,
    fun written => ⟨Fields.ordered_ofList written, fun _ => Fields.ofList_perm⟩⟩
  · rw [Value.same_iff]
    exact (Value.Same.of_same hab).trans_iff (.of_same hbc)
  · cases h with
    | numbers hne hm hn =>
      -- whole numbers below the limit are told apart by their floats
      by_contra hsmall
      rw [not_or, Nat.not_le, Nat.not_le] at hsmall
      exact hne (eq_of_floatOfInt_beq hsmall.1 hsmall.2 (BEq.trans hm (BEq.symm hn)))

/-- A list that has an integer, a list that has it as a float, and a list that has it again; and a
record whose fields are written in another order. -/
theorem two_is_two_point_zero :
    let two : Value := .list [.int 2]
    let float : Value := .list [.float 2]
    let first : String × Value := ("a", .int 2)
    let second : String × Value := ("b", .null)
    (two.same float = true ∧ float.same two = true ∧ two.same two = true) ∧
    Fields.ofList [second, first] = Fields.ofList [first, second] ∧
    (Value.record [first, second]).same (.record [("a", .float 2), second]) = true := by
  intro two float first second
  obtain ⟨hcomm, htrans, -, -, hrecord, hwritten⟩ := sameness_laws
  have hsame : two.same float = true := by decide +kernel
  have hsame' : float.same two = true := (hcomm float two).trans hsame
  have hordered : ∀ v : Value, Fields.Ordered [("a", v), second] := fun v =>
    List.pairwise_pair.2 (show "a" < "b" by decide)
  refine ⟨⟨hsame, hsame', (htrans two float two hsame hsame').2 ?_⟩, ?_, ?_⟩
  · show ¬ Value.Straddled (.list [.int 2]) (.list [.float 2]) (.list [.int 2])
    -- ⟨i, hm, hx, hn, hstraddled⟩) | the only items are both 2, and so do not differ
    rintro (_ | ⟨i, hm, hx, hn, hstraddled⟩)
    cases i with
    | zero =>
      cases hm
      cases hx
      cases hn
      cases hstraddled with
      | numbers hne => exact hne rfl
    | succ i => cases hm
  · exact (hwritten [second, first]).2 _ (.swap _ _ _) (by decide)
  · refine (hrecord _ _ (hordered _) (hordered _)).2 fun name => ?_
    show Option.Rel _ (if "a" = name then _ else if "b" = name then _ else none)
      (if "a" = name then _ else if "b" = name then _ else none)
    split
    · exact .some (show (Value.int 2).same (.float 2) = true by decide +kernel)
    split
    · exact .some (show Value.null.same .null = true from rfl)
    · exact .none

/-- The float between two integers that cannot be told apart as floats. -/
theorem limit_straddles :
    let below : Value := .int 9007199254740992
    let limit : Value := .float 9007199254740992
    let above : Value := .int 9007199254740993
    below.same limit = true ∧ limit.same above = true ∧ below.same above = false := by
  decide +kernel

end PipeLang
