/-!
# Named entries in order

`Fields` is a list of named entries in ascending order of their names, each name once.  Records
keep their fields in one, scopes their bindings.  The order is part of what is shown: a record
prints its fields in it.

The view of such a list is `get?`: `get?_insert_self` and `get?_insert_of_ne` say what writing an
entry does to it, `get?_erase_self` and `get?_erase_of_ne` what removing one does, and
`Ordered.insert` and `Ordered.erase` that the order is kept.  So an entry that is removed and
written again is where it was (`Ordered.insert_erase`).
-/

namespace PipeLang

/-- Named entries. -/
abbrev Fields (α : Type) : Type := List (String × α)

namespace Fields

variable {α : Type}

/-- The entry of a name. -/
def get? (name : String) : Fields α → Option α
  | [] => none
  | (key, value) :: rest => if key = name then some value else get? name rest

/-- Write the entry of a name, in its place in the order. -/
def insert (name : String) (value : α) : Fields α → Fields α
  | [] => [(name, value)]
  | (key, old) :: rest =>
    if key = name then (name, value) :: rest
    else if name < key then (name, value) :: (key, old) :: rest
    else (key, old) :: insert name value rest

/-- Remove the entry of a name. -/
def erase (name : String) (fields : Fields α) : Fields α :=
  fields.filter fun entry => entry.1 != name

/-- The names, in order. -/
def names (fields : Fields α) : List String := fields.map Prod.fst

/-- The entries of a list, of a repeated name the last one. -/
def ofList (entries : List (String × α)) : Fields α :=
  entries.foldl (fun fields entry => insert entry.1 entry.2 fields) []

/-! ### Writing -/

/-- An entry that is found is one of the entries. -/
theorem mem_of_get? {name : String} {value : α} {fields : Fields α}
    (h : get? name fields = some value) : (name, value) ∈ fields := by
  induction fields with
  | nil => cases h
  | cons entry rest ih =>
    obtain ⟨key, old⟩ := entry
    rw [get?] at h
    split at h
    · next hkey =>
      obtain rfl := Option.some.inj h
      simp [hkey]
    · exact List.mem_cons_of_mem _ (ih h)

@[simp] theorem get?_insert_self (name : String) (value : α) (fields : Fields α) :
    get? name (insert name value fields) = some value := by
  induction fields with
  | nil => simp [insert, get?]
  | cons entry rest ih =>
    obtain ⟨key, old⟩ := entry
    by_cases hkey : key = name
    · simp [insert, get?, hkey]
    · by_cases hlt : name < key
      · simp [insert, get?, hkey, hlt]
      · simp [insert, get?, hkey, hlt, ih]

theorem get?_insert_of_ne {name other : String} (h : other ≠ name) (value : α)
    (fields : Fields α) : get? other (insert name value fields) = get? other fields := by
  induction fields with
  | nil => simp [insert, get?, h.symm]
  | cons entry rest ih =>
    obtain ⟨key, old⟩ := entry
    by_cases hkey : key = name
    · simp [insert, get?, hkey, h.symm]
    · by_cases hlt : name < key
      · simp [insert, get?, hkey, hlt, h.symm]
      · simp [insert, get?, hkey, hlt, ih]

theorem eq_or_get?_of_get?_insert {name other : String} {value found : α} {fields : Fields α}
    (h : get? other (insert name value fields) = some found) :
    found = value ∨ get? other fields = some found := by
  by_cases hname : other = name
  · subst hname
    rw [get?_insert_self] at h
    exact .inl (Option.some.inj h).symm
  · rw [get?_insert_of_ne hname] at h
    exact .inr h

/-- Of a list that names each entry once, each entry is found. -/
theorem get?_ofList {entries : List (String × α)} (hnodup : (entries.map Prod.fst).Nodup)
    {name : String} {value : α} (h : (name, value) ∈ entries) :
    get? name (ofList entries) = some value := by
  have hother : ∀ (entries : List (String × α)) (fields : Fields α),
      name ∉ entries.map Prod.fst →
        get? name (entries.foldl (fun fields entry => insert entry.1 entry.2 fields) fields) =
          get? name fields := by
    intro entries
    induction entries with
    | nil => exact fun fields _ => rfl
    | cons first rest ih =>
      intro fields hname
      rw [List.map_cons, List.mem_cons, not_or] at hname
      rw [List.foldl_cons, ih _ hname.2, get?_insert_of_ne hname.1]
  have key : ∀ (entries : List (String × α)) (fields : Fields α),
      (entries.map Prod.fst).Nodup → (name, value) ∈ entries →
        get? name (entries.foldl (fun fields entry => insert entry.1 entry.2 fields) fields) =
          some value := by
    intro entries
    induction entries with
    | nil => exact fun fields _ h => absurd h List.not_mem_nil
    | cons first rest ih =>
      intro fields hnodup h
      obtain ⟨hfirst, hrest⟩ := List.nodup_cons.1 hnodup
      rcases List.mem_cons.1 h with rfl | h
      · rw [List.foldl_cons, hother rest _ hfirst, get?_insert_self]
      · exact ih _ hrest h
  exact key entries [] hnodup h

/-! ### Removing -/

@[simp] theorem get?_erase_self (name : String) (fields : Fields α) :
    get? name (erase name fields) = none := by
  induction fields with
  | nil => rfl
  | cons entry rest ih =>
    obtain ⟨key, old⟩ := entry
    by_cases hkey : key = name
    · simpa [erase, hkey] using ih
    · simpa [erase, get?, hkey] using ih

theorem get?_erase_of_ne {name other : String} (h : other ≠ name) (fields : Fields α) :
    get? other (erase name fields) = get? other fields := by
  induction fields with
  | nil => rfl
  | cons entry rest ih =>
    obtain ⟨key, old⟩ := entry
    by_cases hkey : key = name
    · simpa [erase, get?, hkey, h.symm] using ih
    · by_cases hother : key = other
      · simp [erase, get?, hother, h]
      · simpa [erase, get?, hkey, hother] using ih

theorem get?_of_get?_erase {name other : String} {found : α} {fields : Fields α}
    (h : get? other (erase name fields) = some found) : get? other fields = some found := by
  by_cases hname : other = name
  · subst hname
    rw [get?_erase_self] at h
    cases h
  · rw [get?_erase_of_ne hname] at h
    exact h

/-! ### Order -/

/-- Names ascend from each entry to all later ones. -/
def Ordered (fields : Fields α) : Prop := fields.Pairwise fun a b => a.1 < b.1

theorem mem_insert {name : String} {value : α} {fields : Fields α} {entry : String × α}
    (h : entry ∈ insert name value fields) : entry = (name, value) ∨ entry ∈ fields := by
  induction fields with
  | nil => simp_all [insert]
  | cons first rest ih =>
    obtain ⟨key, old⟩ := first
    by_cases hkey : key = name
    · simp only [insert, hkey, if_true, List.mem_cons] at h ⊢
      rcases h with rfl | h
      · exact .inl rfl
      · exact .inr (.inr h)
    · by_cases hlt : name < key
      · simp only [insert, hkey, hlt, if_true, if_false, List.mem_cons] at h ⊢
        rcases h with rfl | h
        · exact .inl rfl
        · exact .inr h
      · simp only [insert, hkey, hlt, if_false, List.mem_cons] at h ⊢
        rcases h with h | h
        · exact .inr (.inl h)
        · exact (ih h).imp id .inr

/-- The entries of a list of entries are among them. -/
theorem mem_of_mem_ofList {entries : List (String × α)} {entry : String × α}
    (h : entry ∈ ofList entries) : entry ∈ entries := by
  have key : ∀ (entries : List (String × α)) (fields : Fields α),
      entry ∈ entries.foldl (fun fields entry => Fields.insert entry.1 entry.2 fields) fields →
        entry ∈ fields ∨ entry ∈ entries := by
    intro entries
    induction entries with
    | nil => exact fun fields h => .inl h
    | cons first rest ih =>
      intro fields h
      rcases ih _ h with h | h
      · rcases mem_insert h with rfl | h
        · exact .inr (by simp)
        · exact .inl h
      · exact .inr (List.mem_cons_of_mem _ h)
  exact (key entries [] h).resolve_left (by simp)

theorem Ordered.insert {fields : Fields α} (h : fields.Ordered) (name : String) (value : α) :
    Ordered (Fields.insert name value fields) := by
  induction fields with
  | nil => exact List.pairwise_singleton _ _
  | cons first rest ih =>
    obtain ⟨key, old⟩ := first
    obtain ⟨hfirst, hrest⟩ := List.pairwise_cons.1 h
    by_cases hkey : key = name
    · subst hkey
      simp only [Fields.insert, if_true]
      exact List.pairwise_cons.2 ⟨hfirst, hrest⟩
    · by_cases hlt : name < key
      · simp only [Fields.insert, hkey, hlt, if_true, if_false]
        refine List.pairwise_cons.2 ⟨fun entry hentry => ?_, h⟩
        rcases List.mem_cons.1 hentry with rfl | hentry
        · exact hlt
        · exact String.lt_trans hlt (hfirst entry hentry)
      · simp only [Fields.insert, hkey, hlt, if_false]
        refine List.pairwise_cons.2 ⟨fun entry hentry => ?_, ih hrest⟩
        rcases mem_insert hentry with rfl | hentry
        · have hle : key ≤ name := String.not_lt.1 hlt
          exact Decidable.byContradiction fun hn =>
            hkey (String.le_antisymm hle (String.not_lt.1 hn))
        · exact hfirst entry hentry

theorem Ordered.erase {fields : Fields α} (h : fields.Ordered) (name : String) :
    Ordered (Fields.erase name fields) :=
  List.Pairwise.filter _ h

/-- Of two entries that are written for a name, the second one stays. -/
theorem insert_insert (name : String) (value old : α) (fields : Fields α) :
    insert name value (insert name old fields) = insert name value fields := by
  induction fields with
  | nil => simp [insert]
  | cons first rest ih =>
    obtain ⟨key, found⟩ := first
    by_cases hkey : key = name
    · simp [insert, hkey]
    · by_cases hlt : name < key
      · simp [insert, hkey, hlt]
      · simp [insert, hkey, hlt, ih]

theorem erase_of_forall_lt {name : String} {fields : Fields α}
    (h : ∀ entry ∈ fields, name < entry.1) : erase name fields = fields := by
  refine List.filter_eq_self.2 fun entry hentry => ?_
  have hne : entry.1 ≠ name := fun heq => String.lt_irrefl name (heq ▸ h entry hentry)
  simpa using hne

theorem insert_of_forall_lt {name : String} {fields : Fields α}
    (h : ∀ entry ∈ fields, name < entry.1) (value : α) :
    insert name value fields = (name, value) :: fields := by
  cases fields with
  | nil => rfl
  | cons first rest =>
    have hlt := h first List.mem_cons_self
    have hne : first.1 ≠ name := fun heq => String.lt_irrefl name (heq ▸ hlt)
    rw [insert, if_neg hne, if_pos hlt]

/-- An entry that is removed and written again is in its old place. -/
theorem Ordered.insert_erase {fields : Fields α} (h : fields.Ordered) (name : String) (value : α) :
    Fields.insert name value (Fields.erase name fields) = Fields.insert name value fields := by
  induction fields with
  | nil => rfl
  | cons first rest ih =>
    obtain ⟨key, old⟩ := first
    obtain ⟨hfirst, hrest⟩ := List.pairwise_cons.1 h
    by_cases hkey : key = name
    · subst hkey
      have hgone : Fields.erase key ((key, old) :: rest) = rest := by
        rw [Fields.erase, List.filter_cons_of_neg (by simp)]
        exact erase_of_forall_lt hfirst
      rw [hgone, Fields.insert, if_pos rfl, insert_of_forall_lt hfirst]
    · have hkept : Fields.erase name ((key, old) :: rest) = (key, old) :: Fields.erase name rest :=
        List.filter_cons_of_pos (by simpa using hkey)
      rw [hkept, Fields.insert, Fields.insert, if_neg hkey, if_neg hkey, ih hrest]
      by_cases hlt : name < key
      · rw [if_pos hlt, if_pos hlt]
        rw [erase_of_forall_lt fun entry hentry => String.lt_trans hlt (hfirst entry hentry)]
      · rw [if_neg hlt, if_neg hlt]

end Fields

end PipeLang
