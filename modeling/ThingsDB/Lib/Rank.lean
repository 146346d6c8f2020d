import Mathlib.Data.Finset.Card

/-!
# Ranks

The rank of an element is the number of smaller ones. Different elements of a list have
different ranks, so when the list is without duplicates each number below its length is the
rank of exactly one of them.
-/

namespace Rank

open List Finset

variable {α : Type*} [LinearOrder α] {l : List α} {x y : α} {k : ℕ}

def rank (l : List α) (x : α) : ℕ := l.countP fun y => y < x

theorem rank_lt (hx : x ∈ l) : rank l x < l.length := by
  apply lt_of_le_of_ne countP_le_length
  intro heq
  have hall := countP_eq_length.mp heq x hx
  simp at hall

theorem rank_lt_rank (hx : x ∈ l) (hxy : x < y) : rank l x < rank l y := by
  induction l with
  | nil => simp at hx
  | cons z l ih =>
    have hle : ∀ m : List α, rank m x ≤ rank m y := fun m =>
      countP_mono_left fun z _ hz => by
        simp only [decide_eq_true_eq] at hz ⊢
        exact hz.trans hxy
    unfold rank at ih hle ⊢
    simp only [countP_cons, decide_eq_true_eq]
    rcases mem_cons.mp hx with rfl | hx
    · have := hle l
      simp only [lt_irrefl, if_false, hxy, if_true]
      omega
    · have := ih hx
      by_cases hz : z < x
      · simp only [hz, hz.trans hxy, if_true]
        omega
      · simp only [hz, if_false]
        split_ifs <;> omega

theorem rank_injective (hx : x ∈ l) (hy : y ∈ l) (h : rank l x = rank l y) : x = y := by
  rcases lt_trichotomy x y with hlt | heq | hlt
  · exact absurd h (rank_lt_rank hx hlt).ne
  · exact heq
  · exact absurd h (rank_lt_rank hy hlt).ne'

theorem existsUnique_rank (hl : l.Nodup) (hk : k < l.length) : ∃! x, x ∈ l ∧ rank l x = k := by
  have himage : l.toFinset.image (rank l) = Finset.range l.length := by
    apply eq_of_subset_of_card_le
    · intro r hr
      obtain ⟨x, hx, rfl⟩ := mem_image.mp hr
      exact Finset.mem_range.mpr (rank_lt (mem_toFinset.mp hx))
    · rw [card_range, card_image_of_injOn, toFinset_card_of_nodup hl]
      intro x hx y hy hxy
      exact rank_injective (by simpa using hx) (by simpa using hy) hxy
  obtain ⟨x, hx, hrank⟩ := mem_image.mp (himage ▸ Finset.mem_range.mpr hk)
  refine ⟨x, ⟨mem_toFinset.mp hx, hrank⟩, ?_⟩
  rintro y ⟨hy, hyk⟩
  exact rank_injective hy (mem_toFinset.mp hx) (hyk.trans hrank.symm)

end Rank
