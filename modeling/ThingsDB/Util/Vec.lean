import Mathlib.Tactic

/-!
# The data of a vector

`util/vec` where its data is written directly: `memmove` and `memcpy` on the slots
of the data, and the elements up to a number of them. What is in a slot beyond the
elements does not matter.
-/

namespace ThingsDB.Util

open List

abbrev Slots (α : Type) : Type := ℕ → α

namespace Slots

variable {α : Type} [Inhabited α]

def ofList (l : List α) : Slots α := fun p => l.getD p default

/-- `memmove` of `n` slots. -/
def memmove (b : Slots α) (dst src n : ℕ) : Slots α :=
  fun p => if dst ≤ p ∧ p < dst + n then b (src + (p - dst)) else b p

def write (b : Slots α) (i : ℕ) (xs : List α) : Slots α :=
  fun p => if i ≤ p then xs.getD (p - i) (b p) else b p

def set (b : Slots α) (i : ℕ) (x : α) : Slots α := fun p => if p = i then x else b p

omit [Inhabited α] in
@[simp] theorem set_self (b : Slots α) (i : ℕ) (x : α) : b.set i x i = x := if_pos rfl

omit [Inhabited α] in
theorem set_of_ne (b : Slots α) {i p : ℕ} (x : α) (h : p ≠ i) : b.set i x p = b p := if_neg h

/-- The first `n` slots. -/
def read (b : Slots α) (n : ℕ) : List α := (List.range n).map fun p => b p

omit [Inhabited α] in
@[simp] theorem length_read (b : Slots α) (n : ℕ) : (b.read n).length = n := by
  simp [read]

omit [Inhabited α] in
theorem getElem?_read (b : Slots α) {n p : ℕ} (hp : p < n) : (b.read n)[p]? = some (b p) := by
  simp [read, hp]

section Forall

variable {P : α → Prop} {b : Slots α}

theorem forall_ofList {l : List α} (h : ∀ x ∈ l, P x) (hd : P default) (p : ℕ) :
    P (ofList l p) := by
  rw [ofList, getD_eq_getElem?_getD]
  cases hp : l[p]? with
  | none => exact hd
  | some x => exact h x (mem_of_getElem? hp)

omit [Inhabited α] in
theorem forall_memmove (h : ∀ p, P (b p)) (dst src n p : ℕ) : P (b.memmove dst src n p) := by
  unfold memmove
  split_ifs
  · exact h _
  · exact h p

omit [Inhabited α] in
theorem forall_write (h : ∀ p, P (b p)) {xs : List α} (hxs : ∀ x ∈ xs, P x) (i p : ℕ) :
    P (b.write i xs p) := by
  unfold write
  split_ifs
  · rw [getD_eq_getElem?_getD]
    cases hp : xs[p - i]? with
    | none => exact h p
    | some x => exact hxs x (mem_of_getElem? hp)
  · exact h p

omit [Inhabited α] in
theorem forall_mem_read (h : ∀ p, P (b p)) (n : ℕ) : ∀ x ∈ b.read n, P x := by
  intro x hx
  obtain ⟨p, -, rfl⟩ := mem_map.mp hx
  exact h p

end Forall

/-- Elements are replaced when the tail is moved and the new ones are written. -/
theorem read_replace {l : List α} (new : List α) {i c : ℕ} (hic : i + c ≤ l.length) :
    (((ofList l).memmove (i + new.length) (i + c) (l.length - i - c)).write i new).read
      (l.length + new.length - c) = l.take i ++ new ++ l.drop (i + c) := by
  apply ext_getElem?
  intro p
  by_cases hp : p < l.length + new.length - c
  · rw [getElem?_read _ hp]
    simp only [write, memmove, ofList, getD_eq_getElem?_getD, getElem?_append,
      getElem?_take, getElem?_drop, length_take, length_append]
    by_cases h₁ : p < i
    · grind
    · by_cases h₂ : p < i + new.length
      · grind
      · grind
  · rw [getElem?_eq_none (by simp; omega), getElem?_eq_none]
    simp
    omega

section Restore

variable {β : Type} (f : α → β) {l : List α} {b : Slots α}

theorem map_read_eq_iff : (b.read l.length).map f = l.map f ↔
    ∀ p, p < l.length → f (b p) = f (l.getD p default) := by
  constructor
  · intro h p hp
    have hget := congrArg (·[p]?) h
    simp only [getElem?_map, getElem?_read b hp, getElem?_eq_getElem hp,
      Option.map_some, Option.some.injEq] at hget
    simp [hp, hget]
  · intro h
    apply ext_getElem?
    intro p
    by_cases hp : p < l.length
    · have hslot := h p hp
      simp only [getElem?_map, getElem?_read b hp, getElem?_eq_getElem hp,
        Option.map_some, Option.some.injEq]
      simpa [hp] using hslot
    · rw [getElem?_eq_none (by simpa using hp), getElem?_eq_none (by simpa using hp)]

/-- Deleted elements are written back: the list is as before if the slots after them are. -/
theorem map_read_write_eq_iff {i c : ℕ} (hic : i + c ≤ l.length)
    (hb : ∀ p, p < i → b p = l.getD p default) :
    ((b.write i ((l.drop i).take c)).read l.length).map f = l.map f ↔
      ∀ p, i + c ≤ p → p < l.length → f (b p) = f (l.getD p default) := by
  rw [map_read_eq_iff]
  have hdel : ((l.drop i).take c).length = c := by simp; omega
  have hafter : ∀ p, i + c ≤ p → b.write i ((l.drop i).take c) p = b p := by
    intro p hp
    have hnone : ((l.drop i).take c)[p - i]? = none := getElem?_eq_none (by omega)
    have hip : i ≤ p := by omega
    simp [write, hip, getD_eq_getElem?_getD, hnone]
  constructor
  · intro h p hp hp'
    rw [← hafter p hp]
    exact h p hp'
  · intro h p hp
    by_cases hc : i + c ≤ p
    · rw [hafter p hc]
      exact h p hc hp
    · by_cases hip : i ≤ p
      · have hsome : ((l.drop i).take c)[p - i]? = l[p]? := by
          rw [getElem?_take_of_lt (by omega), getElem?_drop, Nat.add_sub_cancel' hip]
        simp [write, hip, hsome, hp]
      · rw [write, if_neg hip, hb p (by omega)]

end Restore

end Slots

theorem insertIdx_eq_append {α : Type} {l : List α} {i : ℕ} (hi : i ≤ l.length) (x : α) :
    l.insertIdx i x = l.take i ++ x :: l.drop i := by
  induction i generalizing l with
  | zero => simp
  | succ i ih =>
    cases l with
    | nil => simp at hi
    | cons y l => simpa using ih (by simpa using hi)

def vecSwapRemove {α : Type*} (l : List α) (i : ℕ) : List α :=
  match l.getLast? with
  | none => l
  | some x => (l.set i x).dropLast

section SwapRemove

variable {α : Type*} (l : List α) (i : ℕ)

@[simp] theorem length_vecSwapRemove : (vecSwapRemove l i).length = l.length - 1 := by
  cases hlast : l.getLast? with
  | none => simp [vecSwapRemove, getLast?_eq_none_iff.mp hlast]
  | some x => simp [vecSwapRemove, hlast]

theorem getElem?_vecSwapRemove {j : ℕ} (hi : i < l.length) (hj : j + 1 < l.length) :
    (vecSwapRemove l i)[j]? = if j = i then l[l.length - 1]? else l[j]? := by
  cases hlast : l.getLast? with
  | none => simp [getLast?_eq_none_iff.mp hlast] at hi
  | some x =>
    rw [getLast?_eq_getElem?] at hlast
    have hset : (vecSwapRemove l i)[j]? = (l.set i x)[j]? := by
      rw [vecSwapRemove, getLast?_eq_getElem?, hlast, getElem?_dropLast]
      simp only [length_set]
      rw [if_pos (by omega)]
    rw [hset, getElem?_set]
    split_ifs with h₁ h₂ h₃
    · exact hlast.symm
    · omega
    · omega
    · rfl

theorem mem_of_mem_vecSwapRemove {l : List α} {i : ℕ} {x : α} (h : x ∈ vecSwapRemove l i) :
    x ∈ l := by
  unfold vecSwapRemove at h
  cases hlast : l.getLast? with
  | none => rwa [hlast] at h
  | some y =>
    rw [hlast] at h
    rcases mem_or_eq_of_mem_set (mem_of_mem_dropLast h) with hx | rfl
    · exact hx
    · exact mem_of_getLast? hlast

theorem vecSwapRemove_perm (hi : i < l.length) : (vecSwapRemove l i).Perm (l.eraseIdx i) := by
  induction l using reverseRecOn with
  | nil => exact absurd hi (Nat.not_lt_zero i)
  | append_singleton l x _ =>
    rw [vecSwapRemove, getLast?_append_of_ne_nil _ (cons_ne_nil x [])]
    simp only [getLast?_singleton]
    rcases Nat.lt_or_ge i l.length with hlt | hge
    · rw [set_append_left _ _ hlt, dropLast_concat, eraseIdx_append_of_lt_length hlt]
      exact (set_perm_cons_eraseIdx hlt x).trans (perm_append_singleton x _).symm
    · obtain rfl : i = l.length := by simp at hi; omega
      rw [set_append_right _ _ le_rfl, eraseIdx_append_of_length_le le_rfl]
      simp

end SwapRemove

end ThingsDB.Util
