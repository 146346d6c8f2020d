import Mathlib.Data.Int.Basic
import Mathlib.Tactic.Common
import Mathlib.Order.Basic
import Mathlib.Algebra.Order.Group.Int

/-!
# Checked arithmetic on 64-bit integers

The operations of C on signed integers. A result is `none` when C does not define it, as
for a sum out of the range, and the right side of a condition is evaluated only when the
left side does not decide it.
-/

namespace ThingsDB.Checked

def Fits (z : ℤ) : Prop := -2 ^ 63 ≤ z ∧ z < 2 ^ 63

instance (z : ℤ) : Decidable (Fits z) := inferInstanceAs (Decidable (_ ∧ _))

/-- The result `z` of an operation, when it is in the range. -/
def checked (z : ℤ) : Option Int64 := if Fits z then some (Int64.ofInt z) else none

def plus (x y : Int64) : Option Int64 := checked (x.toInt + y.toInt)

def minus (x y : Int64) : Option Int64 := checked (x.toInt - y.toInt)

/-- `c && p` -/
def andAlso (c : Prop) [Decidable c] (p : Option Bool) : Option Bool :=
  if c then p else some false

/-- `p || q` -/
def orElse (p q : Option Bool) : Option Bool := p.bind fun b => if b then some true else q

variable {x y : Int64} {z : ℤ}

theorem fits_toInt (x : Int64) : Fits x.toInt := ⟨x.le_toInt, x.toInt_lt⟩

theorem toInt_ofInt (h : Fits z) : (Int64.ofInt z).toInt = z :=
  Int64.toInt_ofInt_of_le h.1 h.2

theorem checked_of_fits (h : Fits z) : checked z = some (Int64.ofInt z) := if_pos h

theorem plus_of_fits (h : Fits (x.toInt + y.toInt)) : plus x y = some (x + y) := by
  simp [plus, checked_of_fits h]

theorem minus_of_fits (h : Fits (x.toInt - y.toInt)) : minus x y = some (x - y) := by
  simp [minus, checked_of_fits h]

/-- A condition which is defined on both sides of an or. -/
theorem orElse_andAlso {c d e f : Prop} [Decidable c] [Decidable d] [Decidable e] [Decidable f]
    {p q : Option Bool} (hp : c → p = some (decide e)) (hq : d → q = some (decide f)) :
    orElse (andAlso c p) (andAlso d q) = some (decide (c ∧ e ∨ d ∧ f)) := by
  by_cases hc : c <;> by_cases hd : d <;> by_cases he : e <;> simp_all [orElse, andAlso]

theorem toInt_add_of_fits (h : Fits (x.toInt + y.toInt)) : (x + y).toInt = x.toInt + y.toInt := by
  simpa using toInt_ofInt h

theorem toInt_sub_of_fits (h : Fits (x.toInt - y.toInt)) : (x - y).toInt = x.toInt - y.toInt := by
  simpa using toInt_ofInt h

theorem toInt_pos (hy : 0 < y) : 0 < y.toInt := Int64.lt_iff_toInt_lt.mp hy

theorem toInt_neg (hy : y < 0) : y.toInt < 0 := Int64.lt_iff_toInt_lt.mp hy

theorem fits_maxValue_sub (hy : 0 < y) : Fits (Int64.maxValue.toInt - y.toInt) := by
  have h1 := toInt_pos hy
  have h2 := fits_toInt y
  have hmax : Int64.maxValue.toInt = 2 ^ 63 - 1 := rfl
  unfold Fits at h2 ⊢
  omega

theorem fits_minValue_sub (hy : y < 0) : Fits (Int64.minValue.toInt - y.toInt) := by
  have h1 := toInt_neg hy
  have h2 := fits_toInt y
  have hmin : Int64.minValue.toInt = -2 ^ 63 := rfl
  unfold Fits at h2 ⊢
  omega

theorem fits_maxValue_add (hy : y < 0) : Fits (Int64.maxValue.toInt + y.toInt) := by
  have h1 := toInt_neg hy
  have h2 := fits_toInt y
  have hmax : Int64.maxValue.toInt = 2 ^ 63 - 1 := rfl
  unfold Fits at h2 ⊢
  omega

theorem fits_minValue_add (hy : 0 < y) : Fits (Int64.minValue.toInt + y.toInt) := by
  have h1 := toInt_pos hy
  have h2 := fits_toInt y
  have hmin : Int64.minValue.toInt = -2 ^ 63 := rfl
  unfold Fits at h2 ⊢
  omega

theorem toInt_ne_zero (hy : y ≠ 0) : y.toInt ≠ 0 := by
  intro h
  exact hy (Int64.toInt_inj.mp h)

/-- Only the smallest integer over -1 does not fit. -/
theorem fits_tdiv_iff (hy : y ≠ 0) :
    Fits (x.toInt.tdiv y.toInt) ↔ ¬(x = Int64.minValue ∧ y = -1) := by
  constructor
  · rintro h ⟨rfl, rfl⟩
    exact absurd h (by decide)
  · intro h
    have hx := fits_toInt x
    have hy0 := toInt_ne_zero hy
    have hle := Int.natAbs_tdiv_le_natAbs x.toInt y.toInt
    have hend : ¬(x.toInt = -2 ^ 63 ∧ y.toInt = -1) := by
      rintro ⟨h1, h2⟩
      exact h ⟨Int64.toInt_inj.mp h1, Int64.toInt_inj.mp h2⟩
    unfold Fits at hx ⊢
    refine ⟨by omega, ?_⟩
    by_cases hy1 : y.toInt = -1
    · rw [hy1, Int.tdiv_neg, Int.tdiv_one]
      omega
    by_cases hpos : 0 < y.toInt
    · obtain hn | hn := Int.le_total 0 x.toInt
      · omega
      · have hq := Int.tdiv_nonneg (Int.neg_nonneg_of_nonpos hn) hpos.le
        rw [Int.neg_tdiv] at hq
        omega
    · have hhalf : (x.toInt.tdiv y.toInt).natAbs ≤ x.toInt.natAbs / 2 := by
        rw [Int.natAbs_tdiv]
        exact Nat.div_le_div_left (by omega) (by decide)
      omega

end ThingsDB.Checked
