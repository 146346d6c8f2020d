import ThingsDB.Opr.Exact

/-!
# Quotients and remainders

`opr__div` and `opr__mod` for the operands which are an `int` or a `bool`. Only the quotient of the
smallest integer and -1 does not fit. The guard of `opr__div` names the largest integer instead, and
`opr__mod` has no guard.
-/

namespace ThingsDB

open Checked

namespace Opr.Num

/-- The result is an error for a zero, and the truncated quotient or an overflow otherwise. -/
def DivExact (r : OprResult) (a b : ℤ) : Prop := if b = 0 then r = zerodiv else Exact r (a.tdiv b)

/-- The result is an error for a zero, and the remainder otherwise. -/
def ModExact (r : OprResult) (a b : ℤ) : Prop :=
  if b = 0 then r = zerodiv else r = typeInt (Int64.ofInt (a.tmod b))

variable {x y : Int64} {a b : Num}

theorem vint_eq_neg_one_iff : b.vint = -1 ↔ b = int (-1) := by
  cases b with
  | int y => simp [vint]
  | bool y => cases y <;> simp [vint, vbool]

theorem vint_eq_minValue_iff : a.vint = Int64.minValue ↔ a = int Int64.minValue := by
  cases a with
  | int x => simp [vint]
  | bool x => cases x <;> simp [vint, vbool] <;> decide

/-- The quotient is defined unless it does not fit. -/
theorem exact_quot_iff (hy : y ≠ 0) :
    Exact ((quot x y).bind typeInt) (x.toInt.tdiv y.toInt) ↔ ¬(x = Int64.minValue ∧ y = -1) := by
  rw [quot_eq hy, exact_checked_iff, fits_tdiv_iff hy]

theorem divExact_quot_iff (x y : Int64) :
    DivExact (if y = 0 then zerodiv else (quot x y).bind typeInt) x.toInt y.toInt ↔
      ¬(x = Int64.minValue ∧ y = -1) := by
  by_cases hy : y = 0
  · subst hy
    exact iff_of_true rfl (by simp)
  · rw [DivExact, if_neg (toInt_ne_zero hy), if_neg hy, exact_quot_iff hy]

theorem quot_one (x : Int64) : quot x 1 = some (x / 1) := by
  have h : ¬((1 : Int64) = 0 ∨ x = Int64.minValue ∧ (1 : Int64) = -1) := by
    rintro (h | ⟨-, h⟩) <;> exact absurd h (by decide)
  rw [quot, if_neg h]

/-- `opr__div` with a boolean has no guard for the overflow. -/
theorem div_eq (E : Env) (typeOf : ℕ → Option TypeId) (a b : Num) :
    Opr.div E typeOf a.val b.val =
      if b.vint = 0 then zerodiv
      else if a = int Int64.maxValue ∧ b = int (-1) then overflow
      else (quot a.vint b.vint).bind typeInt := by
  cases a with
  | int x =>
    cases b with
    | int y => simp [Opr.div, val, vint]
    | bool y => cases y <;> simp [Opr.div, val, vint, vbool, quot_one]
  | bool x =>
    cases b with
    | int y => simp [Opr.div, val, vint]
    | bool y => cases y <;> simp [Opr.div, val, vint, vbool, quot_one]

theorem mod_eq (E : Env) (typeOf : ℕ → Option TypeId) (a b : Num) :
    Opr.mod E typeOf a.val b.val = modInt a.vint b.vint := by
  cases a <;> cases b <;> rfl

theorem not_divExact_overflow : ¬DivExact overflow (int Int64.maxValue).toInt (int (-1)).toInt := by
  rw [DivExact, if_neg (by decide), exact_overflow_iff]
  decide

theorem div_exact_iff (E : Env) (typeOf : ℕ → Option TypeId) (a b : Num) :
    DivExact (Opr.div E typeOf a.val b.val) a.toInt b.toInt ↔
      ¬(b = int (-1) ∧ (a = int Int64.maxValue ∨ a = int Int64.minValue)) := by
  rw [div_eq]
  by_cases hmax : a = int Int64.maxValue ∧ b = int (-1)
  · obtain ⟨rfl, rfl⟩ := hmax
    rw [if_neg (by decide), if_pos ⟨rfl, rfl⟩]
    exact iff_of_false not_divExact_overflow (by simp)
  · simp only [if_neg hmax]
    rw [toInt, toInt, divExact_quot_iff, vint_eq_minValue_iff, vint_eq_neg_one_iff]
    tauto

theorem modExact_modInt_iff (x y : Int64) :
    ModExact (modInt x y) x.toInt y.toInt ↔ ¬(x = Int64.minValue ∧ y = -1) := by
  by_cases hy : y = 0
  · subst hy
    exact iff_of_true rfl (by simp)
  rw [ModExact, if_neg (toInt_ne_zero hy), modInt, if_neg hy]
  by_cases h : x = Int64.minValue ∧ y = -1
  · rw [rem, if_pos (.inr h)]
    exact iff_of_false (by simp [typeInt]) (not_not.mpr h)
  · have hval : Int64.ofInt (x.toInt.tmod y.toInt) = x % y := by
      rw [Int64.ofInt_tmod x.minValue_le_toInt x.toInt_le y.minValue_le_toInt y.toInt_le,
        Int64.ofInt_toInt, Int64.ofInt_toInt]
    rw [rem, if_neg (by simp [hy, h]), hval]
    exact iff_of_true rfl h

theorem mod_exact_iff (E : Env) (typeOf : ℕ → Option TypeId) (a b : Num) :
    ModExact (Opr.mod E typeOf a.val b.val) a.toInt b.toInt ↔
      ¬(b = int (-1) ∧ a = int Int64.minValue) := by
  rw [mod_eq, toInt, toInt, modExact_modInt_iff, vint_eq_minValue_iff, vint_eq_neg_one_iff,
    and_comm]

/-- The quotient and the remainder are right unless the second operand is -1 and the first one is
the smallest integer, or the largest one for the quotient. -/
theorem div_mod_exact_iff (E : Env) (typeOf : ℕ → Option TypeId) (a b : Num) :
    (DivExact (Opr.div E typeOf a.val b.val) a.toInt b.toInt ↔
      ¬(b = int (-1) ∧ (a = int Int64.maxValue ∨ a = int Int64.minValue))) ∧
    (ModExact (Opr.mod E typeOf a.val b.val) a.toInt b.toInt ↔
      ¬(b = int (-1) ∧ a = int Int64.minValue)) :=
  ⟨div_exact_iff E typeOf a b, mod_exact_iff E typeOf a b⟩

/-- The smallest integer is divided by -1, and the largest one is not. -/
theorem div_mod_neg_one :
    (Opr.div default (fun _ => none) (.int Int64.minValue) (.int (-1)) = none ∧
      ¬DivExact none Int64.minValue.toInt (-1)) ∧
    (Opr.div default (fun _ => none) (.int Int64.maxValue) (.int (-1)) = overflow ∧
      ¬DivExact overflow Int64.maxValue.toInt (-1)) ∧
    Opr.mod default (fun _ => none) (.int Int64.minValue) (.int (-1)) = none ∧
      ¬ModExact none Int64.minValue.toInt (-1) := by
  have hdiv := div_exact_iff default (fun _ => none) (int Int64.minValue) (int (-1))
  have hmod := mod_exact_iff default (fun _ => none) (int Int64.minValue) (int (-1))
  exact ⟨⟨rfl, hdiv.not.mpr (by simp)⟩, ⟨rfl, not_divExact_overflow⟩, rfl, hmod.not.mpr (by simp)⟩

end Opr.Num

end ThingsDB
