import Mathlib.Tactic

/-!
# Ring buffers

A list in a ring of slots, from some slot on. The first slot may also be the one after the
last, which is the same as the slot zero.
-/

namespace Ring

open List

variable {α : Type*} {d : ℕ → α} {sz s i : ℕ} {l : List α}

def slot (sz s i : ℕ) : ℕ := (s + i) % sz

theorem slot_of_lt (h : s + i < sz) : slot sz s i = s + i := Nat.mod_eq_of_lt h

theorem slot_of_le (h : sz ≤ s + i) (hlt : s + i < 2 * sz) : slot sz s i = s + i - sz := by
  rw [slot, Nat.mod_eq_sub_mod h]
  exact Nat.mod_eq_of_lt (by omega)

theorem slot_cases (hs : s ≤ sz) (hi : i < sz) :
    (s + i < sz ∧ slot sz s i = s + i) ∨ (sz ≤ s + i ∧ slot sz s i = s + i - sz) := by
  rcases Nat.lt_or_ge (s + i) sz with h | h
  · exact Or.inl ⟨h, slot_of_lt h⟩
  · exact Or.inr ⟨h, slot_of_le h (by omega)⟩

theorem slot_ne {j : ℕ} (hs : s ≤ sz) (hi : i < sz) (hj : j < sz) (hne : i ≠ j) :
    slot sz s i ≠ slot sz s j := by
  rcases slot_cases hs hi with ⟨_, hi⟩ | ⟨_, hi⟩ <;>
    rcases slot_cases hs hj with ⟨_, hj⟩ | ⟨_, hj⟩ <;> omega

/-- The slots from `s` on hold a list. -/
structure Holds (d : ℕ → α) (sz s : ℕ) (l : List α) : Prop where
  start : s ≤ sz
  fits : l.length ≤ sz
  get : ∀ i a, l[i]? = some a → d (slot sz s i) = a

variable {a : α} {d' : ℕ → α}

namespace Holds

theorem nil (hs : s ≤ sz) : Holds d sz s [] := ⟨hs, Nat.zero_le sz, by simp⟩

section

variable (h : Holds d sz s l)

include h

theorem lt_of_getElem? (ha : l[i]? = some a) : i < sz :=
  lt_of_lt_of_le (List.getElem?_eq_some_iff.mp ha).1 h.fits

theorem getElem?_eq (hi : i < l.length) : l[i]? = some (d (slot sz s i)) := by
  rw [getElem?_eq_getElem hi, h.get i _ (getElem?_eq_getElem hi)]

theorem map_range : (List.range l.length).map (fun i => d (slot sz s i)) = l := by
  apply ext_getElem?
  intro i
  by_cases hi : i < l.length
  · rw [h.getElem?_eq hi, getElem?_map, getElem?_range hi]
    rfl
  · rw [getElem?_eq_none (by simpa using hi), getElem?_eq_none (by simpa using hi)]

theorem take (n : ℕ) : Holds d sz s (l.take n) := by
  refine ⟨h.start, ?_, fun i a ha => ?_⟩
  · rw [length_take]
    exact (Nat.min_le_right _ _).trans h.fits
  · rw [getElem?_take] at ha
    split_ifs at ha
    exact h.get i a ha

theorem concat (hlt : l.length < sz) (ha : d' (slot sz s l.length) = a)
    (hrest : ∀ p, p ≠ slot sz s l.length → d' p = d p) : Holds d' sz s (l ++ [a]) := by
  refine ⟨h.start, by simpa using hlt, fun i b hb => ?_⟩
  rcases Nat.lt_trichotomy i l.length with hi | rfl | hi
  · rw [getElem?_append_left hi] at hb
    rw [hrest _ (slot_ne h.start (hi.trans hlt) hlt hi.ne)]
    exact h.get i b hb
  · rw [getElem?_concat_length] at hb
    exact ha.trans (Option.some.inj hb)
  · rw [getElem?_eq_none (by simpa using hi)] at hb
    cases hb

end

theorem tail (h : Holds d sz s (a :: l)) : Holds d sz (slot sz s 1) l := by
  have hlen : l.length + 1 ≤ sz := h.fits
  refine ⟨(Nat.mod_lt _ (by omega)).le, by omega, fun i b hb => ?_⟩
  have hi := (List.getElem?_eq_some_iff.mp hb).1
  have hnext : slot sz (slot sz s 1) i = slot sz s (i + 1) := by
    simp only [slot, Nat.mod_add_mod]
    congr 1
    omega
  rw [hnext]
  exact h.get (i + 1) b hb

theorem cons {s' : ℕ} (h : Holds d sz s l) (hlt : l.length < sz)
    (hs' : s' + 1 = s ∨ s = 0 ∧ s' + 1 = sz) (ha : d' s' = a) (hrest : ∀ p, p ≠ s' → d' p = d p) :
    Holds d' sz s' (a :: l) := by
  have hs := h.start
  refine ⟨by omega, by simpa using hlt, fun i b hb => ?_⟩
  cases i with
  | zero =>
    have hslot : slot sz s' 0 = s' := slot_of_lt (by omega)
    rw [hslot, ha]
    simpa using hb
  | succ i =>
    rw [getElem?_cons_succ] at hb
    have hi := (List.getElem?_eq_some_iff.mp hb).1
    have hprev : slot sz s' (i + 1) = slot sz s i := by
      have hs' : s' ≤ sz := by omega
      rcases slot_cases hs' (show i + 1 < sz by omega) with ⟨_, h₁⟩ | ⟨_, h₁⟩ <;>
        rcases slot_cases hs (show i < sz by omega) with ⟨_, h₂⟩ | ⟨_, h₂⟩ <;> omega
    have hne : slot sz s i ≠ s' := by
      rcases slot_cases hs (show i < sz by omega) with ⟨_, h₂⟩ | ⟨_, h₂⟩ <;> omega
    rw [hprev, hrest _ hne]
    exact h.get i b hb

end Holds

end Ring
