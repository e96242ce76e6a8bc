import PipeLang.Builtin.Pure

/-!
# Closures within values

A list, a record or a functional sequence can hold closures.  `Value.closures` lists all closures
that a value holds at any depth, and `Value.Runs p v` says that each of them satisfies `p`.  Of the
environments that these were made in, `Value.envs` and `Value.Over` say the same
(`Value.over_iff_runs`).

No builtin that only computes makes a closure: an answer of one holds closures that its arguments
hold (`UnaryOp.runs_of_answer`, `BinaryOp.runs_of_answer`).
-/

namespace PipeLang

mutual

/-- The closures that a value holds. -/
def Value.closures : Value → List Closure
  | .list items => Value.closuresOfItems items
  | .record fields => Value.closuresOfFields fields
  | .closure c => [c]
  | .sequence _ steps => Value.closuresOfItems steps
  | .null | .bool _ | .int _ | .float _ | .str _ | .native _ | .special _ => []

/-- The closures that some values hold. -/
def Value.closuresOfItems : List Value → List Closure
  | [] => []
  | v :: rest => v.closures ++ Value.closuresOfItems rest

/-- The closures that some named values hold. -/
def Value.closuresOfFields : List (String × Value) → List Closure
  | [] => []
  | (_, v) :: rest => v.closures ++ Value.closuresOfFields rest

end

mutual

/-- The environments that a value holds. -/
def Value.envs : Value → List Env
  | .list items => Value.envsOfItems items
  | .record fields => Value.envsOfFields fields
  | .closure c => [c.env]
  | .sequence _ steps => Value.envsOfItems steps
  | .null | .bool _ | .int _ | .float _ | .str _ | .native _ | .special _ => []

/-- The environments that some values hold. -/
def Value.envsOfItems : List Value → List Env
  | [] => []
  | v :: rest => v.envs ++ Value.envsOfItems rest

/-- The environments that some named values hold. -/
def Value.envsOfFields : List (String × Value) → List Env
  | [] => []
  | (_, v) :: rest => v.envs ++ Value.envsOfFields rest

end

/-- All closures that the value holds have a property. -/
def Value.Runs (p : Closure → Prop) (v : Value) : Prop := ∀ c ∈ v.closures, p c

/-- All environments that the value holds have a property. -/
def Value.Over (p : Env → Prop) (v : Value) : Prop := ∀ env ∈ v.envs, p env

mutual

/-- The environments of a value are those of its closures. -/
theorem Value.envs_eq_map : ∀ v : Value, v.envs = v.closures.map Closure.env
  | .list items => Value.envsOfItems_eq_map items
  | .record fields => Value.envsOfFields_eq_map fields
  | .closure _ => rfl
  | .sequence _ steps => Value.envsOfItems_eq_map steps
  | .null | .bool _ | .int _ | .float _ | .str _ | .native _ | .special _ => rfl

theorem Value.envsOfItems_eq_map :
    ∀ vs : List Value, Value.envsOfItems vs = (Value.closuresOfItems vs).map Closure.env
  | [] => rfl
  | v :: rest => by
    rw [envsOfItems, closuresOfItems, List.map_append, envs_eq_map v, envsOfItems_eq_map rest]

theorem Value.envsOfFields_eq_map : ∀ fields : List (String × Value),
    Value.envsOfFields fields = (Value.closuresOfFields fields).map Closure.env
  | [] => rfl
  | (_, v) :: rest => by
    rw [envsOfFields, closuresOfFields, List.map_append, envs_eq_map v, envsOfFields_eq_map rest]

end

theorem Value.over_iff_runs {p : Env → Prop} {v : Value} :
    v.Over p ↔ v.Runs fun c => p c.env := by
  unfold Over Runs
  rw [envs_eq_map, List.forall_mem_map]

namespace Value

variable {p : Closure → Prop}

theorem mem_closuresOfItems {c : Closure} {vs : List Value} :
    c ∈ closuresOfItems vs ↔ ∃ v ∈ vs, c ∈ v.closures := by
  induction vs with
  | nil => simp [closuresOfItems]
  | cons v rest ih => simp [closuresOfItems, ih]

theorem mem_closuresOfFields {c : Closure} {fields : List (String × Value)} :
    c ∈ closuresOfFields fields ↔ ∃ entry ∈ fields, c ∈ entry.2.closures := by
  induction fields with
  | nil => simp [closuresOfFields]
  | cons entry rest ih =>
    obtain ⟨name, v⟩ := entry
    simp [closuresOfFields, ih]

/-! ### The closures of each value -/

theorem runs_of_closures_eq_nil {v : Value} (h : v.closures = []) : Runs p v := by
  intro c hc
  rw [h] at hc
  cases hc

@[simp] theorem runs_null : Runs p null := runs_of_closures_eq_nil rfl

@[simp] theorem runs_bool (b : Bool) : Runs p (bool b) := runs_of_closures_eq_nil rfl

@[simp] theorem runs_int (n : Int64) : Runs p (int n) := runs_of_closures_eq_nil rfl

@[simp] theorem runs_float (x : Float) : Runs p (float x) := runs_of_closures_eq_nil rfl

@[simp] theorem runs_str (s : String) : Runs p (str s) := runs_of_closures_eq_nil rfl

@[simp] theorem runs_native (n : Native) : Runs p (native n) := runs_of_closures_eq_nil rfl

@[simp] theorem runs_special (s : Special) : Runs p (special s) := runs_of_closures_eq_nil rfl

@[simp] theorem runs_closure {c : Closure} : Runs p (closure c) ↔ p c := by
  show (∀ held ∈ [c], p held) ↔ p c
  rw [List.forall_mem_singleton]

@[simp] theorem runs_list {items : List Value} : Runs p (list items) ↔ ∀ v ∈ items, Runs p v := by
  show (∀ c ∈ closuresOfItems items, p c) ↔ _
  constructor
  · intro h v hv c hc
    exact h c (mem_closuresOfItems.2 ⟨v, hv, hc⟩)
  · intro h c hc
    obtain ⟨v, hv, hmem⟩ := mem_closuresOfItems.1 hc
    exact h v hv c hmem

@[simp] theorem runs_sequence {id : FunctionId} {steps : List Value} :
    Runs p (sequence id steps) ↔ ∀ v ∈ steps, Runs p v := by
  show Runs p (list steps) ↔ _
  exact runs_list

@[simp] theorem runs_record {fields : Fields Value} :
    Runs p (record fields) ↔ ∀ entry ∈ fields, Runs p entry.2 := by
  show (∀ c ∈ closuresOfFields fields, p c) ↔ _
  constructor
  · intro h entry hentry c hc
    exact h c (mem_closuresOfFields.2 ⟨entry, hentry, hc⟩)
  · intro h c hc
    obtain ⟨entry, hentry, hmem⟩ := mem_closuresOfFields.1 hc
    exact h entry hentry c hmem

theorem runs_literal (l : Literal) : Runs p l.value := by cases l <;> simp [Literal.value]

/-! ### Parts of a value -/

theorem runs_of_asList {v : Value} {items : List Value} (hv : Runs p v)
    (h : v.asList = .ok items) : ∀ w ∈ items, Runs p w := by
  unfold asList at h
  split at h
  · obtain rfl := Except.ok.inj h
    exact runs_list.1 hv
  · obtain rfl := Except.ok.inj h
    simp
  · cases h

theorem runs_of_asRecord {v : Value} {fields : Fields Value} (hv : Runs p v)
    (h : v.asRecord = .ok fields) : ∀ entry ∈ fields, Runs p entry.2 := by
  unfold asRecord at h
  split at h
  · obtain rfl := Except.ok.inj h
    exact runs_record.1 hv
  · cases h

theorem runs_of_asSequence {v : Value} {steps : List Value} (hv : Runs p v)
    (h : v.asSequence = .ok steps) : ∀ w ∈ steps, Runs p w := by
  unfold asSequence at h
  split at h
  · obtain rfl := Except.ok.inj h
    exact runs_sequence.1 hv
  · cases h

end Value

theorem runs_fieldOf {p : Closure → Prop} {fields : Fields Value} (name : String)
    (h : ∀ entry ∈ fields, entry.2.Runs p) : (fieldOf fields name).Runs p := by
  unfold fieldOf
  cases hget : fields.get? name with
  | none => simp
  | some v => exact h (name, v) (Fields.mem_of_get? hget)

/-! ### Answers of builtins -/

theorem except_bind_eq_ok_iff {ε α β : Type} {x : Except ε α} {f : α → Except ε β} {b : β} :
    (x >>= f) = .ok b ↔ ∃ a, x = .ok a ∧ f a = .ok b := by
  cases x with
  | error e => simp [bind, Except.bind]
  | ok a => simp [bind, Except.bind]

theorem except_map_eq_ok_iff {ε α β : Type} {x : Except ε α} {f : α → β} {b : β} :
    x.map f = .ok b ↔ ∃ a, x = .ok a ∧ f a = b := by
  cases x with
  | error e => simp [Except.map]
  | ok a => simp [Except.map]

section

variable {p : Closure → Prop} {v w a b : Value}

theorem runs_of_exact {fault : TypeFault} {n : Int} (h : exact fault n = .ok w) : w.Runs p := by
  unfold exact at h
  split at h <;> cases h
  simp

theorem runs_of_arithmetic {op : String} {onInts : Int → Int → Int}
    {onFloats : Float → Float → Float} (h : arithmetic op onInts onFloats a b = .ok w) :
    w.Runs p := by
  unfold arithmetic at h
  obtain ⟨args, -, h⟩ := except_bind_eq_ok_iff.1 h
  cases args with
  | ints x y => exact runs_of_exact h
  | floats x y => cases h; simp

theorem runs_of_divide (h : divide a b = .ok w) : w.Runs p := by
  unfold divide at h
  obtain ⟨args, -, h⟩ := except_bind_eq_ok_iff.1 h
  cases args with
  | ints x y =>
    dsimp only at h
    split at h
    · cases h
    · exact runs_of_exact h
  | floats x y => cases h; simp

theorem runs_of_negate (h : negate v = .ok w) : w.Runs p := by
  unfold negate at h
  split at h
  · exact runs_of_exact h
  · cases h; simp
  · cases h

theorem runs_of_sumItems {items : List Value} (h : sumItems items = .ok w) : w.Runs p := by
  have key : ∀ (items : List Value) (acc : Value), acc.Runs p →
      items.foldlM (arithmetic "sum" (· + ·) (· + ·)) acc = .ok w → w.Runs p := by
    intro items
    induction items with
    | nil =>
      intro acc hacc h
      cases h
      exact hacc
    | cons item rest ih =>
      intro acc _ h
      rw [List.foldlM_cons] at h
      obtain ⟨sum, hsum, h⟩ := except_bind_eq_ok_iff.1 h
      exact ih sum (runs_of_arithmetic hsum) h
  exact key items _ (Value.runs_int 0) h

theorem runs_of_isOrdered {op : String} {wanted : Ordering → Bool}
    (h : isOrdered op wanted a b = .ok w) : w.Runs p := by
  obtain ⟨order, -, rfl⟩ := except_map_eq_ok_iff.1 h
  simp

theorem runs_of_nthItem {items : List Value} {position : Int64} (hitems : ∀ v ∈ items, v.Runs p)
    (h : nthItem items position = .ok w) : w.Runs p := by
  unfold nthItem at h
  dsimp only at h
  split at h
  · split at h
    · next hget =>
      cases h
      exact hitems _ (List.mem_of_getElem? hget)
    · cases h
  · cases h

/-- The answer to one value holds no closure that the value does not hold. -/
theorem UnaryOp.runs_of_answer {op : UnaryOp} (hv : v.Runs p) (h : op.answer v = .ok w) :
    w.Runs p := by
  cases op with
  | neg => exact runs_of_negate h
  | identity => cases h; exact hv
  | stop => cases h
  | isNull => cases h; simp
  | sum =>
    obtain ⟨items, -, h⟩ := except_bind_eq_ok_iff.1 h
    exact runs_of_sumItems h
  | rev =>
    obtain ⟨items, hitems, rfl⟩ := except_map_eq_ok_iff.1 h
    rw [Value.runs_list]
    intro item hitem
    exact Value.runs_of_asList hv hitems item (List.mem_reverse.1 hitem)
  | names =>
    obtain ⟨fields, -, rfl⟩ := except_map_eq_ok_iff.1 h
    simp
  -- the functions of a sequence run what the sequence does
  | functions =>
    obtain ⟨steps, hsteps, rfl⟩ := except_map_eq_ok_iff.1 h
    exact Value.runs_list.2 (Value.runs_of_asSequence hv hsteps)
  | not | length =>
    obtain ⟨_, -, rfl⟩ := except_map_eq_ok_iff.1 h
    simp

/-- The answer to two values holds no closure that the first one does not hold. -/
theorem BinaryOp.runs_of_answer {op : BinaryOp} (ha : a.Runs p) (h : op.answer a b = .ok w) :
    w.Runs p := by
  cases op with
  | add | sub | mul => exact runs_of_arithmetic h
  | div => exact runs_of_divide h
  | eq | ne => cases h; simp
  | lt | le | gt | ge => exact runs_of_isOrdered h
  | head =>
    obtain ⟨items, hitems, h⟩ := except_bind_eq_ok_iff.1 h
    obtain ⟨count, -, h⟩ := except_bind_eq_ok_iff.1 h
    cases h
    rw [Value.runs_list]
    intro item hitem
    exact Value.runs_of_asList ha hitems item (List.mem_of_mem_take hitem)
  | nth =>
    obtain ⟨items, hitems, h⟩ := except_bind_eq_ok_iff.1 h
    obtain ⟨position, -, h⟩ := except_bind_eq_ok_iff.1 h
    exact runs_of_nthItem (Value.runs_of_asList ha hitems) h
  | seq =>
    obtain ⟨first, -, h⟩ := except_bind_eq_ok_iff.1 h
    obtain ⟨last, -, h⟩ := except_bind_eq_ok_iff.1 h
    cases h
    simp
  -- what is taken out of a value runs what the whole does
  | get =>
    unfold BinaryOp.answer at h
    dsimp only at h
    split at h
    · obtain ⟨fields, hfields, rfl⟩ := except_map_eq_ok_iff.1 h
      exact runs_fieldOf _ (Value.runs_of_asRecord ha hfields)
    · cases h

end

end PipeLang
