/-!
# JSON values

The values of JSON, with whole numbers kept apart from floats: a whole number stays exact whatever
its size.  Members of an object keep the order in which they are written.  `member?` finds the
member of a name, the last one if the name is repeated.  A structure with named fields is an object,
or a list of the values of all its fields in their order; `part?` finds a field in either.  What is
found is smaller than what it is found in (`sizeOf_lt_of_part?`), so recursion through fields ends.
-/

namespace PipeLang

/-- A JSON value. -/
inductive Json where
  | null
  | bool (b : Bool)
  | int (n : Int)
  | float (x : Float)
  | str (s : String)
  | arr (items : List Json)
  | obj (members : List (String × Json))
deriving Inhabited

namespace Json

/-- The value of the last member of a name. -/
def lookup? (name : String) : List (String × Json) → Option Json
  | [] => none
  | (key, value) :: rest =>
    (lookup? name rest).or (if key = name then some value else none)

/-- The member of an object; none of anything that is not an object. -/
def member? (name : String) : Json → Option Json
  | obj members => lookup? name members
  | _ => none

theorem sizeOf_lt_of_lookup? {name : String} {members : List (String × Json)} {value : Json}
    (h : lookup? name members = some value) : sizeOf value < sizeOf members := by
  induction members with
  | nil => simp [lookup?] at h
  | cons pair rest ih =>
    obtain ⟨key, first⟩ := pair
    simp only [lookup?, Option.or_eq_some_iff] at h
    rcases h with h | ⟨_, h⟩
    · have := ih h
      simp only [List.cons.sizeOf_spec]
      omega
    · split at h
      · cases h
        simp only [List.cons.sizeOf_spec, Prod.mk.sizeOf_spec]
        omega
      · simp at h

theorem sizeOf_lt_of_member? {name : String} {json value : Json}
    (h : json.member? name = some value) : sizeOf value < sizeOf json := by
  cases json with
  | obj members =>
    have := sizeOf_lt_of_lookup? h
    simp only [obj.sizeOf_spec]
    omega
  | _ => simp [member?] at h

/-- The value of a field of a structure with these fields. -/
def part? (fields : List String) (name : String) : Json → Option Json
  | obj members => lookup? name members
  | arr items => if items.length = fields.length then items[fields.idxOf name]? else none
  | _ => none

theorem sizeOf_lt_of_part? {fields : List String} {name : String} {json value : Json}
    (h : json.part? fields name = some value) : sizeOf value < sizeOf json := by
  cases json with
  | obj members =>
    have hmember : (obj members).member? name = some value := h
    exact sizeOf_lt_of_member? hmember
  | arr items =>
    rw [part?] at h
    split at h
    · have := List.sizeOf_lt_of_mem (List.mem_of_getElem? h)
      simp only [arr.sizeOf_spec]
      omega
    · cases h
  | _ => simp [part?] at h

/-! ### Objects of one member -/

theorem sizeOf_lt_only (name : String) (value : Json) :
    sizeOf value < sizeOf (obj [(name, value)]) := by
  simp only [obj.sizeOf_spec, List.cons.sizeOf_spec, Prod.mk.sizeOf_spec]
  omega

theorem sizeOf_items_lt_only (name : String) (items : List Json) :
    sizeOf items < sizeOf (obj [(name, arr items)]) := by
  have := sizeOf_lt_only name (arr items)
  simp only [arr.sizeOf_spec] at this
  omega

theorem sizeOf_lt_only_of_part? {fields : List String} {field : String} {content value : Json}
    (name : String) (h : content.part? fields field = some value) :
    sizeOf value < sizeOf (obj [(name, content)]) :=
  Nat.lt_trans (sizeOf_lt_of_part? h) (sizeOf_lt_only name content)

theorem sizeOf_items_lt_only_of_part? {fields : List String} {field : String} {content : Json}
    {items : List Json} (name : String) (h : content.part? fields field = some (arr items)) :
    sizeOf items < sizeOf (obj [(name, content)]) := by
  have := sizeOf_lt_only_of_part? name h
  simp only [arr.sizeOf_spec] at this
  omega

end Json

end PipeLang
