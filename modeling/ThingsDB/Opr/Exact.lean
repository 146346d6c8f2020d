import ThingsDB.Opr
import ThingsDB.Lib.Checked

/-!
# Operators on integers and booleans

Which results of the operators are exact, for the operands which are an `int` or a `bool`.
`Num.add` and `Num.sub` are the operators once more with each sum and difference of the
guards checked, so that they are undefined when the code evaluates an undefined one.
-/

namespace ThingsDB

open Util Checked

namespace Opr

inductive Num where
  | int (x : Int64)
  | bool (b : Bool)
  deriving DecidableEq, Repr

namespace Num

def val : Num → Val
  | .int x => .int x
  | .bool b => .bool b

def vint : Num → Int64
  | .int x => x
  | .bool b => vbool b

def toInt (a : Num) : ℤ := a.vint.toInt

/-- `opr__add` with the sums and differences checked. -/
def add : Num → Num → OprResult
  | .int x, .int y => do
    let c ← orElse
      (andAlso (0 < y) ((minus Int64.maxValue y).map (decide <| · < x)))
      (andAlso (y < 0) ((minus Int64.minValue y).map (decide <| x < ·)))
    if c then overflow else (plus x y).bind typeInt
  | .int x, .bool y =>
    if x = Int64.maxValue ∧ y then overflow else (plus x (vbool y)).bind typeInt
  | .bool x, .int y =>
    if x ∧ y = Int64.maxValue then overflow else (plus (vbool x) y).bind typeInt
  | .bool x, .bool y => (plus (vbool x) (vbool y)).bind typeInt

/-- `opr__sub` with the sums and differences checked. -/
def sub : Num → Num → OprResult
  | .int x, .int y => do
    let c ← orElse
      (andAlso (y < 0) ((plus Int64.maxValue y).map (decide <| · < x)))
      (andAlso (0 < y) ((plus Int64.minValue y).map (decide <| x < ·)))
    if c then overflow else (minus x y).bind typeInt
  | .int x, .bool y =>
    if x = Int64.minValue ∧ y then overflow else (minus x (vbool y)).bind typeInt
  | .bool x, .int y =>
    if y = Int64.minValue ∨ x ∧ y = -Int64.maxValue then overflow
    else (minus (vbool x) y).bind typeInt
  | .bool x, .bool y => (minus (vbool x) (vbool y)).bind typeInt

/-- `opr__mul` with the products checked. -/
def mul : Num → Num → OprResult
  | .int x, .int y => mulInt x y
  | a, b => (prod a.vint b.vint).bind typeInt

end Num

/-- The result is the number `z`, or an overflow when it does not fit. -/
def Exact (r : OprResult) (z : ℤ) : Prop :=
  r = if Fits z then typeInt (Int64.ofInt z) else overflow

variable {x y : Int64} {z : ℤ} {r : OprResult} {a b : Num}

theorem Exact.of_fits (hz : Fits z) (h : r = typeInt (Int64.ofInt z)) : Exact r z := by
  rw [Exact, if_pos hz, h]

theorem Exact.of_not_fits (hz : ¬Fits z) (h : r = overflow) : Exact r z := by
  rw [Exact, if_neg hz, h]

/-- An operator is exact with a guard which is true for the results which do not fit. -/
theorem exact_guard {c : Prop} [Decidable c] (hc : c ↔ ¬Fits z) :
    Exact (if c then overflow else (checked z).bind typeInt) z := by
  by_cases hz : Fits z
  · refine .of_fits hz ?_
    rw [if_neg (by simpa [hc] using hz), checked_of_fits hz, Option.bind_some]
  · exact .of_not_fits hz (if_pos (hc.mpr hz))

theorem exact_checked (hz : Fits z) : Exact ((checked z).bind typeInt) z :=
  .of_fits hz (by rw [checked_of_fits hz, Option.bind_some])

/-- With such a guard it is not visible that the result is checked. -/
theorem guard_eq {c : Prop} [Decidable c] (hc : c ↔ ¬Fits z) :
    (if c then overflow else typeInt (Int64.ofInt z)) =
      if c then overflow else (checked z).bind typeInt := by
  by_cases hz : Fits z
  · rw [checked_of_fits hz, Option.bind_some]
  · rw [if_pos (hc.mpr hz), if_pos (hc.mpr hz)]

theorem add_guarded {c : Prop} [Decidable c] (hc : c ↔ ¬Fits (x.toInt + y.toInt)) :
    (if c then overflow else typeInt (x + y)) =
        (if c then overflow else (plus x y).bind typeInt) ∧
      Exact (if c then overflow else (plus x y).bind typeInt) (x.toInt + y.toInt) := by
  have heq := guard_eq hc
  rw [Int64.ofInt_add, Int64.ofInt_toInt, Int64.ofInt_toInt] at heq
  exact ⟨heq, exact_guard hc⟩

theorem sub_guarded {c : Prop} [Decidable c] (hc : c ↔ ¬Fits (x.toInt - y.toInt)) :
    (if c then overflow else typeInt (x - y)) =
        (if c then overflow else (minus x y).bind typeInt) ∧
      Exact (if c then overflow else (minus x y).bind typeInt) (x.toInt - y.toInt) := by
  have heq := guard_eq hc
  rw [Int64.ofInt_sub, Int64.ofInt_toInt, Int64.ofInt_toInt] at heq
  exact ⟨heq, exact_guard hc⟩

theorem typeInt_ne_overflow (x : Int64) : typeInt x ≠ overflow := by
  simp [typeInt, overflow]

theorem not_exact_none : ¬Exact none z := by
  unfold Exact
  split_ifs <;> simp [typeInt, overflow]

theorem exact_overflow_iff : Exact overflow z ↔ ¬Fits z := by
  constructor
  · intro h hz
    rw [Exact, if_pos hz] at h
    exact typeInt_ne_overflow _ h.symm
  · intro hz
    exact .of_not_fits hz rfl

theorem exact_checked_iff : Exact ((checked z).bind typeInt) z ↔ Fits z := by
  refine ⟨fun h => ?_, exact_checked⟩
  by_contra hz
  rw [checked, if_neg hz] at h
  exact not_exact_none h

theorem prod_eq (x y : Int64) : prod x y = checked (x.toInt * y.toInt) := by
  have hle : x.toInt * y.toInt ≤ Int64.maxValue.toInt ↔ x.toInt * y.toInt < 2 ^ 63 :=
    Int.lt_add_one_iff.symm
  simp only [prod, checked, Fits, hle, Int64.ofInt_mul, Int64.ofInt_toInt]
  rfl

theorem quot_eq (hy : y ≠ 0) : quot x y = checked (x.toInt.tdiv y.toInt) := by
  have hfits := fits_tdiv_iff (x := x) hy
  have hval : Int64.ofInt (x.toInt.tdiv y.toInt) = x / y := by
    rw [Int64.ofInt_tdiv x.minValue_le_toInt x.toInt_le y.minValue_le_toInt y.toInt_le,
      Int64.ofInt_toInt, Int64.ofInt_toInt]
  by_cases h : x = Int64.minValue ∧ y = -1
  · rw [quot, if_pos (.inr h), checked, if_neg (by simpa [hfits] using h)]
  · rw [quot, if_neg (by simp [hy, h]), checked_of_fits (hfits.mpr h), hval]

namespace Num

theorem toInt_vbool (b : Bool) : (vbool b).toInt = if b then 1 else 0 := by
  cases b <;> rfl

/-- The differences in the guard fit, as the second operand has the right sign. -/
theorem add_int_int (x y : Int64) : add (.int x) (.int y) =
    if 0 < y ∧ Int64.maxValue - y < x ∨ y < 0 ∧ x < Int64.minValue - y then overflow
    else (checked (x.toInt + y.toInt)).bind typeInt := by
  rw [add, orElse_andAlso (e := Int64.maxValue - y < x) (f := x < Int64.minValue - y)
    (fun h => by rw [minus_of_fits (fits_maxValue_sub h)]; rfl)
    (fun h => by rw [minus_of_fits (fits_minValue_sub h)]; rfl)]
  simp only [Option.bind_eq_bind, Option.bind_some, decide_eq_true_eq, plus]

theorem sub_int_int (x y : Int64) : sub (.int x) (.int y) =
    if y < 0 ∧ Int64.maxValue + y < x ∨ 0 < y ∧ x < Int64.minValue + y then overflow
    else (checked (x.toInt - y.toInt)).bind typeInt := by
  rw [sub, orElse_andAlso (e := Int64.maxValue + y < x) (f := x < Int64.minValue + y)
    (fun h => by rw [plus_of_fits (fits_maxValue_add h)]; rfl)
    (fun h => by rw [plus_of_fits (fits_minValue_add h)]; rfl)]
  simp only [Option.bind_eq_bind, Option.bind_some, decide_eq_true_eq, minus]

theorem add_guard_iff (x y : Int64) :
    0 < y ∧ Int64.maxValue - y < x ∨ y < 0 ∧ x < Int64.minValue - y ↔
      ¬Fits (x.toInt + y.toInt) := by
  have hx := fits_toInt x
  have h0 : (0 : Int64).toInt = 0 := rfl
  have hpos : 0 < y → (Int64.maxValue - y).toInt = 2 ^ 63 - 1 - y.toInt :=
    fun h => toInt_sub_of_fits (fits_maxValue_sub h)
  have hneg : y < 0 → (Int64.minValue - y).toInt = -2 ^ 63 - y.toInt :=
    fun h => toInt_sub_of_fits (fits_minValue_sub h)
  simp only [Int64.lt_iff_toInt_lt, h0] at hpos hneg ⊢
  unfold Fits at hx ⊢
  omega

theorem sub_guard_iff (x y : Int64) :
    y < 0 ∧ Int64.maxValue + y < x ∨ 0 < y ∧ x < Int64.minValue + y ↔
      ¬Fits (x.toInt - y.toInt) := by
  have hx := fits_toInt x
  have h0 : (0 : Int64).toInt = 0 := rfl
  have hneg : y < 0 → (Int64.maxValue + y).toInt = 2 ^ 63 - 1 + y.toInt :=
    fun h => toInt_add_of_fits (fits_maxValue_add h)
  have hpos : 0 < y → (Int64.minValue + y).toInt = -2 ^ 63 + y.toInt :=
    fun h => toInt_add_of_fits (fits_minValue_add h)
  simp only [Int64.lt_iff_toInt_lt, h0] at hpos hneg ⊢
  unfold Fits at hx ⊢
  omega

theorem add_bool_guard_iff (x : Int64) (b : Bool) :
    x = Int64.maxValue ∧ b ↔ ¬Fits (x.toInt + (vbool b).toInt) := by
  have hx := fits_toInt x
  have hmax : x = Int64.maxValue ↔ x.toInt = 2 ^ 63 - 1 := Int64.toInt_inj.symm
  rw [hmax, toInt_vbool]
  unfold Fits at hx ⊢
  cases b <;> simp [-not_and] <;> omega

theorem sub_bool_guard_iff (x : Int64) (b : Bool) :
    x = Int64.minValue ∧ b ↔ ¬Fits (x.toInt - (vbool b).toInt) := by
  have hx := fits_toInt x
  have hmin : x = Int64.minValue ↔ x.toInt = -2 ^ 63 := Int64.toInt_inj.symm
  rw [hmin, toInt_vbool]
  unfold Fits at hx ⊢
  cases b <;> simp [-not_and] <;> omega

theorem bool_sub_guard_iff (b : Bool) (y : Int64) :
    y = Int64.minValue ∨ b ∧ y = -Int64.maxValue ↔ ¬Fits ((vbool b).toInt - y.toInt) := by
  have hy := fits_toInt y
  have hmin : y = Int64.minValue ↔ y.toInt = -2 ^ 63 := Int64.toInt_inj.symm
  have hmax : y = -Int64.maxValue ↔ y.toInt = -2 ^ 63 + 1 := Int64.toInt_inj.symm
  rw [hmin, hmax, toInt_vbool]
  unfold Fits at hy ⊢
  cases b <;> simp [-not_and] <;> omega

theorem add_spec (E : Env) (typeOf : ℕ → Option TypeId) (a b : Num) :
    Opr.add E typeOf a.val b.val = a.add b ∧ Exact (a.add b) (a.toInt + b.toInt) := by
  cases a with
  | int x =>
    cases b with
    | int y =>
      rw [add_int_int]
      exact add_guarded (add_guard_iff x y)
    | bool y => exact add_guarded (add_bool_guard_iff x y)
  | bool x =>
    cases b with
    | int y =>
      have hguard := add_bool_guard_iff y x
      rw [and_comm, add_comm] at hguard
      exact add_guarded hguard
    | bool y => exact ⟨by cases x <;> cases y <;> rfl, exact_checked (by revert x y; decide)⟩

theorem sub_spec (E : Env) (typeOf : ℕ → Option TypeId) (pre : Imap → Bool → Option Ex)
    (a b : Num) :
    Opr.sub E typeOf pre a.val b.val = a.sub b ∧ Exact (a.sub b) (a.toInt - b.toInt) := by
  cases a with
  | int x =>
    cases b with
    | int y =>
      rw [sub_int_int]
      exact sub_guarded (sub_guard_iff x y)
    | bool y => exact sub_guarded (sub_bool_guard_iff x y)
  | bool x =>
    cases b with
    | int y => exact sub_guarded (bool_sub_guard_iff x y)
    | bool y => exact ⟨by cases x <;> cases y <;> rfl, exact_checked (by revert x y; decide)⟩

/-- The product of two integers is exact, or the second one is negative. -/
def MulOk : Num → Num → Prop
  | .int x, .int y => 0 ≤ y ∨ ¬Fits (x.toInt * y.toInt) ∧ y ≠ -1
  | _, _ => True

theorem mulInt_of_pos (hy : 0 < y.toInt) : Exact (mulInt x y) (x.toInt * y.toInt) := by
  have hx := fits_toInt x
  have hy0 : y ≠ 0 := by
    rintro rfl
    exact absurd hy (by decide)
  have hy1 : y ≠ -1 := by
    rintro rfl
    exact absurd hy (by decide)
  have hymin : y ≠ Int64.minValue := by
    rintro rfl
    exact absurd hy (by decide)
  have hmin : Fits (Int64.minValue.toInt.tdiv y.toInt) := (fits_tdiv_iff hy0).mpr (by simp [hy1])
  have hupper : Int64.maxValue / y < x ↔ 2 ^ 63 ≤ x.toInt * y.toInt := by
    rw [Int64.lt_iff_toInt_lt, Int64.toInt_div_of_ne_right _ _ hy1,
      Int.tdiv_eq_ediv_of_nonneg (by decide), Int.ediv_lt_iff_lt_mul hy]
    exact Int.add_one_le_iff.symm
  have hlower : x < Int64.ofInt (Int64.minValue.toInt.tdiv y.toInt) ↔
      x.toInt * y.toInt < -2 ^ 63 := by
    have hneg : Int64.minValue.toInt.tdiv y.toInt = -(2 ^ 63 / y.toInt) := by
      rw [show Int64.minValue.toInt = -2 ^ 63 from rfl, Int.neg_tdiv,
        Int.tdiv_eq_ediv_of_nonneg (by decide)]
    rw [Int64.lt_iff_toInt_lt, toInt_ofInt hmin, hneg, lt_neg, Int.ediv_lt_iff_lt_mul hy,
      Int.neg_mul, lt_neg]
  rw [mulInt, if_neg hy0, quot_eq hy0, checked_of_fits hmin]
  simp only [hupper, hlower, hy1, hymin, false_and, and_false, or_false, prod_eq, ← ite_or]
  refine exact_guard ?_
  unfold Fits
  omega

/-- With a negative operand one of the first two comparisons is true. Between them the
smallest integer is divided by that operand. -/
theorem mulInt_of_neg (hy : y.toInt < 0) : mulInt x y = overflow ∨ mulInt x y = none ∧ y = -1 := by
  have hy0 : y ≠ 0 := by
    rintro rfl
    exact absurd hy (by decide)
  by_cases hupper : Int64.maxValue / y < x
  · rw [mulInt, if_neg hy0, if_pos hupper]
    exact .inl rfl
  by_cases hy1 : y = -1
  · have hquot : quot Int64.minValue y = none := by rw [quot, if_pos (.inr ⟨rfl, hy1⟩)]
    rw [mulInt, if_neg hy0, if_neg hupper, hquot]
    exact .inr ⟨rfl, hy1⟩
  · have hmin : Fits (Int64.minValue.toInt.tdiv y.toInt) := (fits_tdiv_iff hy0).mpr (by simp [hy1])
    have hlower : x < Int64.ofInt (Int64.minValue.toInt.tdiv y.toInt) := by
      have hyfits := fits_toInt y
      unfold Fits at hyfits
      have hquot : 1 ≤ Int64.minValue.toInt.tdiv y.toInt := by
        rw [show Int64.minValue.toInt = -2 ^ 63 from rfl, ← Int.neg_tdiv_neg, neg_neg,
          Int.tdiv_eq_ediv_of_nonneg (by decide), Int.le_ediv_iff_mul_le (by omega)]
        omega
      have hmax : (Int64.maxValue / y).toInt ≤ 0 := by
        rw [Int64.toInt_div_of_ne_right _ _ hy1, ← neg_neg y.toInt, Int.tdiv_neg,
          Int.tdiv_eq_ediv_of_nonneg (by decide)]
        have h := Int.ediv_nonneg (a := Int64.maxValue.toInt) (b := -y.toInt) (by decide) (by omega)
        omega
      rw [Int64.lt_iff_toInt_lt] at hupper ⊢
      rw [toInt_ofInt hmin]
      omega
    rw [mulInt, if_neg hy0, if_neg hupper, quot_eq hy0, checked_of_fits hmin]
    exact .inl (if_pos (.inl hlower))

theorem mulInt_neg_one_none (hx : x.toInt ≤ -2 ^ 63 + 1) : mulInt x (-1) = none := by
  have hupper : ¬Int64.maxValue / -1 < x := by
    rw [Int64.lt_iff_toInt_lt, show (Int64.maxValue / -1).toInt = -2 ^ 63 + 1 from rfl]
    omega
  rw [mulInt, if_neg (by decide), if_neg hupper]
  rfl

theorem exact_mulInt_of_neg (hy : y.toInt < 0) :
    Exact (mulInt x y) (x.toInt * y.toInt) ↔ ¬Fits (x.toInt * y.toInt) ∧ y ≠ -1 := by
  obtain h | ⟨h, rfl⟩ := mulInt_of_neg (x := x) hy
  · rw [h, exact_overflow_iff]
    refine ⟨fun hz => ⟨hz, ?_⟩, And.left⟩
    -- the only product with -1 which does not fit is not reached
    rintro rfl
    have hx := fits_toInt x
    have hmul : x.toInt * (-1 : Int64).toInt = -x.toInt := Int.mul_neg_one _
    rw [hmul] at hz
    rw [mulInt_neg_one_none (by unfold Fits at hx hz; omega)] at h
    exact absurd h (by simp [overflow])
  · rw [h]
    simp [not_exact_none]

theorem mulInt_exact_iff (x y : Int64) :
    Exact (mulInt x y) (x.toInt * y.toInt) ↔ MulOk (.int x) (.int y) := by
  have hle : 0 ≤ y ↔ 0 ≤ y.toInt := Int64.le_iff_toInt_le
  obtain hneg | hzero | hpos := lt_trichotomy y.toInt 0
  · rw [exact_mulInt_of_neg hneg, MulOk, hle, or_iff_right (by omega)]
  · obtain rfl : y = 0 := Int64.toInt_inj.mp hzero
    refine iff_of_true ?_ (.inl (by decide))
    rw [hzero, Int.mul_zero]
    rfl
  · exact iff_of_true (mulInt_of_pos hpos) (.inl (hle.mpr hpos.le))

theorem fits_mul_vbool (x : Int64) (b : Bool) : Fits (x.toInt * (vbool b).toInt) := by
  rw [toInt_vbool]
  split_ifs
  · rw [Int.mul_one]
    exact fits_toInt x
  · rw [Int.mul_zero]
    decide

theorem fits_vbool_mul (b : Bool) (y : Int64) : Fits ((vbool b).toInt * y.toInt) := by
  rw [Int.mul_comm]
  exact fits_mul_vbool y b

theorem mul_exact_iff (a b : Num) : Exact (a.mul b) (a.toInt * b.toInt) ↔ MulOk a b := by
  cases a with
  | int x =>
    cases b with
    | int y => exact mulInt_exact_iff x y
    | bool y =>
      refine iff_of_true ?_ trivial
      rw [mul, prod_eq]
      · exact exact_checked (fits_mul_vbool x y)
      · simp
  | bool x =>
    refine iff_of_true ?_ trivial
    rw [mul, prod_eq]
    · exact exact_checked (fits_vbool_mul x b.vint)
    · simp

theorem mul_eq (E : Env) (typeOf : ℕ → Option TypeId) (a b : Num) :
    Opr.mul E typeOf a.val b.val = a.mul b := by
  have hprod : ∀ {x y : Int64}, Fits (x.toInt * y.toInt) →
      (prod x y).bind typeInt = typeInt (x * y) := by
    intro x y h
    rw [prod_eq, checked_of_fits h, Int64.ofInt_mul, Int64.ofInt_toInt, Int64.ofInt_toInt,
      Option.bind_some]
  cases a with
  | int x =>
    cases b with
    | int y => rfl
    | bool y => exact (hprod (fits_mul_vbool x y)).symm
  | bool x =>
    cases b with
    | int y => exact (hprod (fits_vbool_mul x y)).symm
    | bool y => exact (hprod (fits_vbool_mul x (vbool y))).symm

/-- The sum and the difference are exact or an overflow, and no guard is undefined. The product
is exact unless the second integer is negative: then each product is an overflow, and for
the product with -1 the guard is undefined for the two smallest integers. -/
theorem add_sub_exact_mul_exact_iff (E : Env) (typeOf : ℕ → Option TypeId)
    (pre : Imap → Bool → Option Ex) (a b : Num) :
    (Opr.add E typeOf a.val b.val = a.add b ∧ Exact (a.add b) (a.toInt + b.toInt)) ∧
    (Opr.sub E typeOf pre a.val b.val = a.sub b ∧ Exact (a.sub b) (a.toInt - b.toInt)) ∧
    (Opr.mul E typeOf a.val b.val = a.mul b ∧
      (Exact (a.mul b) (a.toInt * b.toInt) ↔ MulOk a b)) :=
  ⟨add_spec E typeOf a b, sub_spec E typeOf pre a b,
    mul_eq E typeOf a b, mul_exact_iff a b⟩

/-- `1 * -2` is an overflow, and `-LLONG_MAX * -1` divides the smallest integer by -1. -/
theorem mul_negative_not_exact :
    ¬Exact ((int 1).mul (int (-2))) ((int 1).toInt * (int (-2)).toInt) ∧
    (int 1).mul (int (-2)) = overflow ∧
    ¬Exact ((int (-Int64.maxValue)).mul (int (-1)))
      ((int (-Int64.maxValue)).toInt * (int (-1)).toInt) ∧
    (int (-Int64.maxValue)).mul (int (-1)) = none := by
  have h1 : (int 1).mul (int (-2)) = overflow := by
    rw [mul, mulInt, if_neg (by decide), if_pos (by decide)]
  have h2 : (int (-Int64.maxValue)).mul (int (-1)) = none := mulInt_neg_one_none (by decide)
  refine ⟨?_, h1, ?_, h2⟩
  · rw [h1, exact_overflow_iff]
    decide
  · rw [h2]
    exact not_exact_none

end Num

end Opr

end ThingsDB
