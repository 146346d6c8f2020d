import Mathlib.Data.List.Basic
import Mathlib.Data.Nat.Basic
import Mathlib.Order.Basic
import Mathlib.Tactic.Common

/-!
# Ordered id lists

`util/olist` keeps ids in a singly linked list, lowest first and without
duplicates. Both walks below stop at the first cell which is not smaller than
the given id, exactly as the pointer walks of `olist_set` and `olist_rm`. The
order is a field of the structure, so an unordered list cannot be built.
-/

namespace ThingsDB.Util

open List

/-- The walk of `olist_set`: keep the smaller cells, stop on an equal one. -/
def olistInsert (id : ℕ) : List ℕ → List ℕ
  | [] => [id]
  | a :: as =>
    if a < id then a :: olistInsert id as
    else if a = id then a :: as
    else id :: a :: as

/-- The walk of `olist_rm`: only the first cell which is not smaller is looked at. -/
def olistErase (id : ℕ) : List ℕ → List ℕ
  | [] => []
  | a :: as =>
    if a < id then a :: olistErase id as
    else if a = id then as
    else a :: as

variable {xs : List ℕ} {id : ℕ}

theorem mem_olistInsert {x : ℕ} (xs : List ℕ) : x ∈ olistInsert id xs ↔ x = id ∨ x ∈ xs := by
  induction xs with
  | nil => simp [olistInsert]
  | cons a as ih =>
    unfold olistInsert
    split_ifs with hlt heq
    · simp only [mem_cons, ih]
      tauto
    · subst heq
      simp only [mem_cons]
      tauto
    · simp only [mem_cons]

theorem olistInsert_sorted (h : xs.Pairwise (· < ·)) : (olistInsert id xs).Pairwise (· < ·) := by
  induction xs with
  | nil => simp [olistInsert]
  | cons a as ih =>
    obtain ⟨hhead, htail⟩ := pairwise_cons.mp h
    unfold olistInsert
    split_ifs with hlt heq
    · refine pairwise_cons.mpr ⟨?_, ih htail⟩
      intro b hb
      rcases (mem_olistInsert as).mp hb with rfl | hb
      · exact hlt
      · exact hhead b hb
    · exact h
    · refine pairwise_cons.mpr ⟨?_, h⟩
      intro b hb
      have ha : id < a := by omega
      rcases mem_cons.mp hb with rfl | hb
      · exact ha
      · exact ha.trans (hhead b hb)

theorem olistErase_sublist (id : ℕ) (xs : List ℕ) : (olistErase id xs).Sublist xs := by
  induction xs with
  | nil => simp [olistErase]
  | cons a as ih =>
    unfold olistErase
    split_ifs
    · exact ih.cons_cons a
    · exact sublist_cons_self a as
    · exact List.Sublist.refl _

theorem mem_olistErase {x : ℕ} (h : xs.Pairwise (· < ·)) :
    x ∈ olistErase id xs ↔ x ∈ xs ∧ x ≠ id := by
  induction xs with
  | nil => simp [olistErase]
  | cons a as ih =>
    obtain ⟨hhead, htail⟩ := pairwise_cons.mp h
    unfold olistErase
    split_ifs with hlt heq
    · simp only [mem_cons, ih htail]
      constructor
      · rintro (rfl | ⟨hx, hne⟩)
        · exact ⟨Or.inl rfl, by omega⟩
        · exact ⟨Or.inr hx, hne⟩
      · rintro ⟨rfl | hx, hne⟩
        · exact Or.inl rfl
        · exact Or.inr ⟨hx, hne⟩
    · subst heq
      constructor
      · intro hx
        have := hhead x hx
        exact ⟨mem_cons_of_mem _ hx, by omega⟩
      · rintro ⟨hx, hne⟩
        exact (mem_cons.mp hx).resolve_left hne
    · constructor
      · intro hx
        refine ⟨hx, ?_⟩
        rcases mem_cons.mp hx with rfl | hx
        · exact heq
        · have := hhead x hx
          omega
      · exact fun hx => hx.1

/-- `olist_t`: the ids in the order in which the cells are linked. -/
structure Olist where
  ids : List ℕ
  sorted : ids.Pairwise (· < ·)

namespace Olist

instance : Membership ℕ Olist := ⟨fun l x => x ∈ l.ids⟩

def create : Olist := ⟨[], List.Pairwise.nil⟩

def set (l : Olist) (id : ℕ) : Olist := ⟨olistInsert id l.ids, olistInsert_sorted l.sorted⟩

def rm (l : Olist) (id : ℕ) : Olist :=
  ⟨olistErase id l.ids, l.sorted.sublist (olistErase_sublist id l.ids)⟩

@[simp] theorem not_mem_create (x : ℕ) : x ∉ create := not_mem_nil

@[simp] theorem mem_set (l : Olist) (id x : ℕ) : x ∈ l.set id ↔ x = id ∨ x ∈ l :=
  mem_olistInsert l.ids

@[simp] theorem mem_rm (l : Olist) (id x : ℕ) : x ∈ l.rm id ↔ x ∈ l ∧ x ≠ id :=
  mem_olistErase l.sorted

end Olist
end ThingsDB.Util
