import Mathlib.Algebra.Ring.Nat
import Mathlib.Data.Fin.Basic
import Mathlib.Data.List.Basic

/-!
# Bijective numeration

Every natural number is one list of digits below `b` which is not empty, the lowest digit first:
what is left of a number after its lowest digit is counted from one.
-/

namespace Bijective

variable (b : ℕ) [NeZero b]

def digitsAux : ℕ → ℕ → List (Fin b)
  | 0, n => [Fin.ofNat b n]
  | fuel + 1, n =>
    if n / b = 0 then [Fin.ofNat b n] else Fin.ofNat b n :: digitsAux fuel (n / b - 1)

/-- The digits of a number; a number has no more digits than its own value, and one. -/
def digits (n : ℕ) : List (Fin b) := digitsAux b n n

variable {b}

omit [NeZero b] in
theorem div_sub_one_lt {n : ℕ} (h : n / b ≠ 0) : n / b - 1 < n := by
  exact Nat.lt_of_lt_of_le (Nat.sub_lt (Nat.pos_of_ne_zero h) Nat.one_pos) (Nat.div_le_self n b)

theorem digitsAux_eq {fuel n : ℕ} (h : n ≤ fuel) : digitsAux b fuel n = digits b n := by
  induction n using Nat.strong_induction_on generalizing fuel with
  | _ n ih =>
    cases fuel with
    | zero => rw [Nat.le_zero.mp h, digits]
    | succ fuel =>
      cases n with
      | zero => simp [digits, digitsAux]
      | succ n =>
        rw [digits, digitsAux, digitsAux]
        by_cases hdiv : (n + 1) / b = 0
        · rw [if_pos hdiv, if_pos hdiv]
        · have hlt := div_sub_one_lt hdiv
          rw [if_neg hdiv, if_neg hdiv, ih _ hlt (by omega), ih _ hlt (by omega)]

theorem digits_eq (n : ℕ) : digits b n =
    if n / b = 0 then [Fin.ofNat b n] else Fin.ofNat b n :: digits b (n / b - 1) := by
  cases n with
  | zero => simp [digits, digitsAux]
  | succ n =>
    rw [digits, digitsAux]
    by_cases hdiv : (n + 1) / b = 0
    · rw [if_pos hdiv, if_pos hdiv]
    · have hlt := div_sub_one_lt hdiv
      rw [if_neg hdiv, if_neg hdiv, digitsAux_eq (by omega)]

def value : Fin b → List (Fin b) → ℕ
  | k, [] => k
  | k, j :: js => k + b * (value j js + 1)

theorem ofNat_add_mul (k : Fin b) (m : ℕ) : Fin.ofNat b (k + b * m) = k := by
  apply Fin.ext
  simp [Fin.ofNat, Nat.mod_eq_of_lt k.isLt]

theorem add_mul_div (k : Fin b) (m : ℕ) : ((k : ℕ) + b * m) / b = m := by
  rw [Nat.add_mul_div_left _ _ (Nat.pos_of_neZero b), Nat.div_eq_of_lt k.isLt, Nat.zero_add]

theorem digits_value (k : Fin b) (ks : List (Fin b)) : digits b (value k ks) = k :: ks := by
  induction ks generalizing k with
  | nil =>
    have hmod : Fin.ofNat b k = k := by simp
    rw [value, digits_eq, if_pos (Nat.div_eq_of_lt k.isLt), hmod]
  | cons j js ih =>
    rw [value, digits_eq, add_mul_div, if_neg (Nat.succ_ne_zero _), ofNat_add_mul,
      Nat.add_sub_cancel, ih]

theorem exists_value (n : ℕ) : ∃ k ks, value k ks = n ∧ digits b n = k :: ks := by
  induction n using Nat.strong_induction_on with
  | _ n ih =>
    have hsplit : n = Fin.ofNat b n + b * (n / b) := by
      simpa [Fin.ofNat] using (Nat.mod_add_div n b).symm
    by_cases hdiv : n / b = 0
    · refine ⟨Fin.ofNat b n, [], ?_, by rw [digits_eq, if_pos hdiv]⟩
      rw [value]
      rw [hdiv, Nat.mul_zero, Nat.add_zero] at hsplit
      exact hsplit.symm
    · obtain ⟨j, js, hvalue, hdigits⟩ := ih _ (div_sub_one_lt hdiv)
      refine ⟨Fin.ofNat b n, j :: js, ?_, by rw [digits_eq, if_neg hdiv, hdigits]⟩
      rw [value, hvalue, Nat.sub_add_cancel (Nat.pos_of_ne_zero hdiv)]
      exact hsplit.symm

theorem digits_injective : Function.Injective (digits b) := by
  intro n m h
  obtain ⟨k, ks, rfl, hn⟩ := exists_value (b := b) n
  obtain ⟨j, js, rfl, hm⟩ := exists_value (b := b) m
  rw [hn, hm] at h
  cases h
  rfl

theorem value_inj {k j : Fin b} {ks js : List (Fin b)} :
    value k ks = value j js ↔ k = j ∧ ks = js := by
  constructor
  · intro h
    have hdigits := congrArg (digits b) h
    rw [digits_value, digits_value] at hdigits
    exact List.cons.inj hdigits
  · rintro ⟨rfl, rfl⟩
    rfl

end Bijective
