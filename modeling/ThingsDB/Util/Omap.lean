import Mathlib.Data.List.Pairwise
import Mathlib.Tactic.Common

/-!
# Ordered maps

`util/omap`: a linked list with ascending ids.
-/

namespace ThingsDB.Omap

open List

variable {β : Type}

def get : List (ℕ × β) → ℕ → Option β
  | [], _ => none
  | (i, x) :: m, id => if i < id then get m id else if i = id then some x else none

/-- `omap_set`; the previous data of the id, or the new one if there was none. -/
def set : List (ℕ × β) → ℕ → β → List (ℕ × β) × β
  | [], id, d => ([(id, d)], d)
  | (i, x) :: m, id, d =>
    if i < id then
      let r := set m id d
      ((i, x) :: r.1, r.2)
    else if i = id then ((id, d) :: m, x)
    else ((id, d) :: (i, x) :: m, d)

def rm : List (ℕ × β) → ℕ → List (ℕ × β) × Option β
  | [], _ => ([], none)
  | (i, x) :: m, id =>
    if i < id then
      let r := rm m id
      ((i, x) :: r.1, r.2)
    else if i = id then (m, some x)
    else ((i, x) :: m, none)

def Ordered (m : List (ℕ × β)) : Prop := m.Pairwise fun a b => a.1 < b.1

section Ordered

variable {m : List (ℕ × β)} {id i : ℕ} {d : β}

theorem get_none_of_lt (h : ∀ e ∈ m, id < e.1) : get m id = none := by
  cases m with
  | nil => rfl
  | cons e m =>
    have hlt := h e mem_cons_self
    rw [get, if_neg (Nat.lt_asymm hlt), if_neg (Nat.ne_of_gt hlt)]

theorem mem_iff (h : Ordered m) : (id, d) ∈ m ↔ get m id = some d := by
  induction m with
  | nil => simp [get]
  | cons e m ih =>
    obtain ⟨hlt, hm⟩ := pairwise_cons.mp h
    rw [mem_cons, get]
    by_cases hless : e.1 < id
    · rw [if_pos hless, ← ih hm]
      refine or_iff_right fun heq => ?_
      rw [← heq] at hless
      exact Nat.lt_irrefl _ hless
    · rw [if_neg hless]
      have hnot : (id, d) ∉ m := fun hmem => hless (hlt _ hmem)
      by_cases heq : e.1 = id
      · rw [if_pos heq, or_iff_left hnot, Prod.ext_iff, Option.some_inj, eq_comm, and_iff_right heq,
          eq_comm]
      · rw [if_neg heq]
        simp only [hnot, or_false, reduceCtorEq, iff_false]
        rintro rfl
        exact heq rfl

theorem mem_set {e : ℕ × β} (h : e ∈ (set m id d).1) : e = (id, d) ∨ e ∈ m := by
  induction m with
  | nil => exact .inl (mem_singleton.mp h)
  | cons f m ih =>
    rw [set] at h
    split at h
    · obtain rfl | h := mem_cons.mp h
      · exact .inr mem_cons_self
      · exact (ih h).imp_right (mem_cons_of_mem f)
    · split at h
      · exact (mem_cons.mp h).imp_right (mem_cons_of_mem f)
      · exact mem_cons.mp h

theorem mem_rm {e : ℕ × β} (h : e ∈ (rm m id).1) : e ∈ m := by
  induction m with
  | nil => exact h
  | cons f m ih =>
    rw [rm] at h
    split at h
    · obtain rfl | h := mem_cons.mp h
      · exact mem_cons_self
      · exact mem_cons_of_mem f (ih h)
    · split at h
      · exact mem_cons_of_mem f h
      · exact h

theorem Ordered.set (h : Ordered m) (id : ℕ) (d : β) : Ordered (Omap.set m id d).1 := by
  induction m with
  | nil => exact pairwise_singleton _ _
  | cons e m ih =>
    obtain ⟨hlt, hm⟩ := pairwise_cons.mp h
    rw [Omap.set]
    by_cases hless : e.1 < id
    · rw [if_pos hless]
      refine pairwise_cons.mpr ⟨fun f hf => ?_, ih hm⟩
      obtain rfl | hf := mem_set hf
      · exact hless
      · exact hlt f hf
    · rw [if_neg hless]
      by_cases heq : e.1 = id
      · rw [if_pos heq]
        exact pairwise_cons.mpr ⟨fun f hf => heq ▸ hlt f hf, hm⟩
      · rw [if_neg heq]
        have hgt : id < e.1 := by omega
        refine pairwise_cons.mpr ⟨fun f hf => ?_, h⟩
        obtain rfl | hf := mem_cons.mp hf
        · exact hgt
        · exact Nat.lt_trans hgt (hlt f hf)

theorem Ordered.rm (h : Ordered m) (id : ℕ) : Ordered (Omap.rm m id).1 := by
  induction m with
  | nil => exact h
  | cons e m ih =>
    obtain ⟨hlt, hm⟩ := pairwise_cons.mp h
    rw [Omap.rm]
    by_cases hless : e.1 < id
    · rw [if_pos hless]
      exact pairwise_cons.mpr ⟨fun f hf => hlt f (mem_rm hf), ih hm⟩
    · rw [if_neg hless]
      by_cases heq : e.1 = id
      · rwa [if_pos heq]
      · rwa [if_neg heq]

theorem get_set (m : List (ℕ × β)) (id i : ℕ) (d : β) :
    get (set m id d).1 i = if i = id then some d else get m i := by
  induction m with
  | nil =>
    simp only [set, get]
    split_ifs <;> first | rfl | omega
  | cons e m ih =>
    rw [set]
    by_cases hless : e.1 < id
    · rw [if_pos hless]
      simp only [get, ih]
      split_ifs <;> first | rfl | omega
    · rw [if_neg hless]
      by_cases heq : e.1 = id
      · rw [if_pos heq]
        simp only [get]
        split_ifs <;> first | rfl | omega
      · rw [if_neg heq]
        simp only [get]
        split_ifs <;> first | rfl | omega

theorem set_snd (m : List (ℕ × β)) (id : ℕ) (d : β) : (set m id d).2 = (get m id).getD d := by
  induction m with
  | nil => rfl
  | cons e m ih =>
    rw [set, get]
    split_ifs
    · exact ih
    · rfl
    · rfl

theorem get_rm (h : Ordered m) (id i : ℕ) :
    get (rm m id).1 i = if i = id then none else get m i := by
  induction m with
  | nil => simp [rm, get]
  | cons e m ih =>
    obtain ⟨hlt, hm⟩ := pairwise_cons.mp h
    rw [rm]
    by_cases hless : e.1 < id
    · rw [if_pos hless]
      simp only [get, ih hm]
      split_ifs <;> first | rfl | omega
    · rw [if_neg hless]
      by_cases heq : e.1 = id
      · rw [if_pos heq]
        have hnone : i ≤ id → get m i = none := fun hi =>
          get_none_of_lt fun f hf => Nat.lt_of_le_of_lt hi (heq ▸ hlt f hf)
        simp only [get]
        split_ifs <;> first | rfl | exact hnone (by omega) | omega
      · rw [if_neg heq]
        simp only [get]
        split_ifs <;> first | rfl | omega

theorem get_rm_of_none (h : Ordered m) (hid : get m id = none) (i : ℕ) :
    get (rm m id).1 i = get m i := by
  rw [get_rm h]
  by_cases hi : i = id
  · rw [if_pos hi, hi, hid]
  · rw [if_neg hi]

theorem rm_snd (m : List (ℕ × β)) (id : ℕ) : (rm m id).2 = get m id := by
  induction m with
  | nil => rfl
  | cons e m ih =>
    rw [rm, get]
    split_ifs
    · exact ih
    · rfl
    · rfl

end Ordered

end ThingsDB.Omap
