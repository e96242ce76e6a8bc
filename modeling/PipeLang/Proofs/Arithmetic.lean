import PipeLang.Program

/-!
# Integer arithmetic

On integers the arithmetic builtins compute with whole numbers of any size.  What comes out is the
exact result, or an error if that has more than 64 bits (`Eval.IsExact`); a quotient has so in one
case only (`fitsWord_tdiv_iff`).

A sum is taken from the left.  It fails at the first partial sum that is out of range, even if the
sum of the whole list is not (`addItems_ints`).

The main result (`integer_arithmetic_is_exact`) says so of the builtins as they are applied.
-/

namespace PipeLang

variable {fault : TypeFault} {n : Int}

theorem exact_of_fitsWord (fault : TypeFault) (h : FitsWord n) :
    exact fault n = .ok (.int (Int64.ofInt n)) := by
  rw [exact, int64?, if_pos h]

theorem exact_of_not_fitsWord (fault : TypeFault) (h : ¬ FitsWord n) :
    exact fault n = .error (.type fault) := by
  rw [exact, int64?, if_neg h]

/-- The computation leaves the store alone.  Its value is the integer, or it fails with the fault if
the integer is out of range. -/
structure Eval.IsExact (x : Eval Value) (n : Int) (fault : TypeFault) : Prop where
  inRange : FitsWord n → ∃ w : Int64, w.toInt = n ∧ x = pure (.int w)
  outOfRange : ¬ FitsWord n → x = .fail (.type fault)

theorem Eval.isExact_exact (fault : TypeFault) (n : Int) :
    (ofExcept (exact fault n)).IsExact n fault where
  inRange h := ⟨Int64.ofInt n, toInt_ofInt_of_fitsWord h, by rw [exact_of_fitsWord _ h]; rfl⟩
  outOfRange h := by
    rw [exact_of_not_fitsWord _ h]
    rfl

/-! ### Quotients -/

/-- A quotient is in range unless the least integer is to change its sign. -/
theorem fitsWord_tdiv_iff {x y : Int64} (hy : y ≠ 0) :
    FitsWord (x.toInt.tdiv y.toInt) ↔ ¬ (x = Int64.minValue ∧ y = -1) := by
  have hx : FitsWord x.toInt := fitsWord_toInt x
  have hmin : x = Int64.minValue ↔ x.toInt = -9223372036854775808 := Int64.toInt_inj.symm
  have hneg : y = -1 ↔ y.toInt = -1 := Int64.toInt_inj.symm
  have hzero : y.toInt ≠ 0 := fun h => hy (Int64.toInt_inj.1 h)
  rw [hmin, hneg]
  unfold FitsWord at hx ⊢
  by_cases hone : y.toInt = 1
  · rw [hone, Int.tdiv_one]
    omega
  by_cases hminus : y.toInt = -1
  · rw [hminus, Int.tdiv_neg, Int.tdiv_one]
    omega
  -- any other divisor at least halves the dividend
  have hhalf : (x.toInt.tdiv y.toInt).natAbs ≤ x.toInt.natAbs / 2 := by
    rw [Int.natAbs_tdiv]
    exact Nat.div_le_div_left (by omega) (by decide)
  omega

theorem divide_ints {y : Int64} (hy : y ≠ 0) (x : Int64) :
    divide (.int x) (.int y) = exact (.overflow "/") (x.toInt.tdiv y.toInt) := if_neg hy

/-! ### Sums -/

/-- The sum of some integers, as a whole number. -/
def wholeSum : List Int64 → Int
  | [] => 0
  | x :: rest => x.toInt + wholeSum rest

/-- The sums of the first so many of some integers, on top of another number, are all in range. -/
def SumsFit (base : Int) (xs : List Int64) : Prop :=
  ∀ front, front <+: xs → FitsWord (base + wholeSum front)

theorem SumsFit.base {base : Int} {xs : List Int64} (h : SumsFit base xs) : FitsWord base := by
  have hnone := h [] List.nil_prefix
  rwa [wholeSum, Int.add_zero] at hnone

theorem sumsFit_nil_iff {base : Int} : SumsFit base [] ↔ FitsWord base := by
  refine ⟨SumsFit.base, fun h front hfront => ?_⟩
  rwa [List.prefix_nil.1 hfront, wholeSum, Int.add_zero]

theorem sumsFit_cons_iff {base : Int} {x : Int64} {xs : List Int64} :
    SumsFit base (x :: xs) ↔ FitsWord base ∧ SumsFit (base + x.toInt) xs := by
  constructor
  · intro h
    refine ⟨h.base, fun front hfront => ?_⟩
    rw [Int.add_assoc]
    exact h (x :: front) (List.cons_prefix_cons.2 ⟨rfl, hfront⟩)
  · rintro ⟨hbase, hrest⟩ front hfront
    rcases List.prefix_cons_iff.1 hfront with rfl | ⟨front', rfl, hfront'⟩
    · rwa [wholeSum, Int.add_zero]
    · rw [wholeSum, ← Int.add_assoc]
      exact hrest front' hfront'

/-- The sum of the items and what comes before them. -/
def addItems (acc : Value) (items : List Value) : Except EvalError Value :=
  items.foldlM (arithmetic "sum" (· + ·) (· + ·)) acc

theorem addItems_cons (acc x : Int64) (items : List Value) :
    addItems (.int acc) (.int x :: items) = (do
      let next ← exact (.overflow "sum") (acc.toInt + x.toInt)
      addItems next items) := rfl

/-- Integers are added up exactly as long as the sums are in range. -/
theorem addItems_ints (xs : List Int64) (acc : Int64) :
    (SumsFit acc.toInt xs → ∃ w : Int64, w.toInt = acc.toInt + wholeSum xs ∧
      addItems (.int acc) (xs.map .int) = .ok (.int w)) ∧
    (¬ SumsFit acc.toInt xs →
      addItems (.int acc) (xs.map .int) = .error (.type (.overflow "sum"))) := by
  have hacc : FitsWord acc.toInt := fitsWord_toInt acc
  induction xs generalizing acc with
  | nil =>
    refine ⟨fun _ => ⟨acc, (Int.add_zero _).symm, rfl⟩, fun h => ?_⟩
    exact absurd (sumsFit_nil_iff.2 hacc) h
  | cons x rest ih =>
    rw [List.map_cons, addItems_cons, sumsFit_cons_iff, wholeSum, ← Int.add_assoc]
    by_cases hnext : FitsWord (acc.toInt + x.toInt)
    · have hword := toInt_ofInt_of_fitsWord hnext
      obtain ⟨hok, hfail⟩ := ih (Int64.ofInt (acc.toInt + x.toInt)) (fitsWord_toInt _)
      rw [hword] at hok hfail
      rw [exact_of_fitsWord _ hnext]
      exact ⟨fun h => hok h.2, fun h => hfail fun hrest => h ⟨hacc, hrest⟩⟩
    · rw [exact_of_not_fitsWord _ hnext]
      exact ⟨fun h => absurd h.2.base hnext, fun _ => rfl⟩

theorem sumsFit_zero_iff {xs : List Int64} :
    SumsFit 0 xs ↔ ∀ front, front <+: xs → FitsWord (wholeSum front) := by
  unfold SumsFit
  simp only [Int.zero_add]

/-! ### The builtins -/

namespace Evaluator

theorem apply_div (k : Nat) (env : Env) (a b : Value) :
    (level (k + 1)).apply env (.native (.binary .div)) [a, b] = Eval.ofExcept (divide a b) := rfl

theorem apply_sum (k : Nat) (env : Env) (items : List Value) :
    (level (k + 1)).apply env (.native (.unary .sum)) [.list items] =
      Eval.ofExcept (addItems (.int 0) items) := rfl

theorem isExact_apply_div (k : Nat) (env : Env) (x : Int64) {y : Int64} (hy : y ≠ 0) :
    ((level (k + 1)).apply env (.native (.binary .div)) [.int x, .int y]).IsExact
      (x.toInt.tdiv y.toInt) (.overflow "/") := by
  rw [apply_div, divide_ints hy]
  exact Eval.isExact_exact _ _

theorem apply_sum_ints (k : Nat) (env : Env) (xs : List Int64) :
    (SumsFit 0 xs → ∃ w : Int64, w.toInt = wholeSum xs ∧
      (level (k + 1)).apply env (.native (.unary .sum)) [.list (xs.map .int)] = pure (.int w)) ∧
    (¬ SumsFit 0 xs →
      (level (k + 1)).apply env (.native (.unary .sum)) [.list (xs.map .int)] =
        .fail (.type (.overflow "sum"))) := by
  have hadd := addItems_ints xs 0
  rw [Int64.toInt_zero, Int.zero_add] at hadd
  rw [apply_sum]
  constructor
  · intro hfit
    obtain ⟨w, hw, hok⟩ := hadd.1 hfit
    exact ⟨w, hw, by rw [hok]; rfl⟩
  · intro hfit
    rw [hadd.2 hfit]
    rfl

end Evaluator

/-- Applied to integers, `+`, `-`, `*` and `neg` give the exact result if it is in range and a type
error otherwise.  Division by zero is an error of its own; the least integer divided by -1 is a type
error, and any other quotient is the exact one, cut off toward zero.  A list of integers has its
exact sum if the sums of its first items are all in range, and otherwise that is a type error.
Nothing is written on the way. -/
theorem integer_arithmetic_is_exact (k : Nat) (env : Env) :
    let answer (n : Native) (args : List Value) :=
      (Evaluator.level (k + 1)).apply env (.native n) args
    (∀ x y : Int64,
      (answer (.binary .add) [.int x, .int y]).IsExact (x.toInt + y.toInt) (.overflow "+") ∧
      (answer (.binary .sub) [.int x, .int y]).IsExact (x.toInt - y.toInt) (.overflow "-") ∧
      (answer (.binary .mul) [.int x, .int y]).IsExact (x.toInt * y.toInt) (.overflow "*")) ∧
    (∀ x : Int64, (answer (.unary .neg) [.int x]).IsExact (-x.toInt) .negationOverflow) ∧
    (∀ x : Int64, answer (.binary .div) [.int x, .int 0] = .fail .divisionByZero) ∧
    answer (.binary .div) [.int Int64.minValue, .int (-1)] = .fail (.type (.overflow "/")) ∧
    (∀ x y : Int64, y ≠ 0 → ¬ (x = Int64.minValue ∧ y = -1) →
      ∃ w : Int64, w.toInt = x.toInt.tdiv y.toInt ∧
        answer (.binary .div) [.int x, .int y] = pure (.int w)) ∧
    ∀ xs : List Int64,
      ((∀ front, front <+: xs → FitsWord (wholeSum front)) →
        ∃ w : Int64, w.toInt = wholeSum xs ∧
          answer (.unary .sum) [.list (xs.map .int)] = pure (.int w)) ∧
      (∀ front, front <+: xs → ¬ FitsWord (wholeSum front) →
        answer (.unary .sum) [.list (xs.map .int)] = .fail (.type (.overflow "sum"))) := by
  intro answer
  refine ⟨fun x y => ⟨?_, ?_, ?_⟩, fun x => ?_, fun x => rfl, ?_, fun x y hy hmin => ?_,
    fun xs => ?_⟩
  · exact Eval.isExact_exact (.overflow "+") _
  · exact Eval.isExact_exact (.overflow "-") _
  · exact Eval.isExact_exact (.overflow "*") _
  · exact Eval.isExact_exact .negationOverflow _
  -- the only quotient of numbers that is out of range
  · have hdiv := Evaluator.isExact_apply_div k env Int64.minValue (y := -1) (by decide)
    exact hdiv.outOfRange fun h => (fitsWord_tdiv_iff (by decide)).1 h ⟨rfl, rfl⟩
  · exact (Evaluator.isExact_apply_div k env x hy).inRange ((fitsWord_tdiv_iff hy).2 hmin)
  · obtain ⟨hok, hfail⟩ := Evaluator.apply_sum_ints k env xs
    refine ⟨fun hall => hok (sumsFit_zero_iff.2 hall), fun front hfront hrange => ?_⟩
    exact hfail fun hfit => hrange (sumsFit_zero_iff.1 hfit front hfront)

/-- The first two items are already too much, whatever the third one takes away again. -/
theorem sum_beyond_the_limit :
    let answer (n : Native) (args : List Value) :=
      (Evaluator.level 1).apply (globalEnv .auto).1 (.native n) args
    answer (.binary .div) [.int Int64.minValue, .int 2] = pure (.int (-4611686018427387904)) ∧
    answer (.unary .sum) [.list [.int Int64.maxValue, .int 1, .int (-1)]] =
      .fail (.type (.overflow "sum")) := by
  intro answer
  obtain ⟨-, -, -, -, hdiv, hsum⟩ := integer_arithmetic_is_exact 0 (globalEnv .auto).1
  obtain ⟨w, hw, hanswer⟩ := hdiv Int64.minValue 2 (by decide) (by decide)
  have hlimit : w = -4611686018427387904 := Int64.toInt_inj.1 (hw.trans (by decide))
  refine ⟨hlimit ▸ hanswer, ?_⟩
  exact (hsum [Int64.maxValue, 1, -1]).2 [Int64.maxValue, 1] ⟨[-1], rfl⟩ (by decide)

end PipeLang
