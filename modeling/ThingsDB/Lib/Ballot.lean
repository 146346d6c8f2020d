import Mathlib.Tactic

/-!
# Counting answers

A ballot gives the answer of every voter who has answered. The lemmas count
answers: one more answer, answers which exclude each other, and voters who are
known not to give a certain answer.
-/

namespace Ballot

open Finset

variable {ι α : Type*} [Fintype ι] {H G : ι → Option α} {p q : α → Bool}

/-- The number of answers which satisfy `p`. -/
def votes (H : ι → Option α) (p : α → Bool) : ℕ :=
  (Finset.univ.filter fun j => (H j).any p = true).card

@[simp] theorem votes_none (p : α → Bool) : votes (fun _ : ι => (none : Option α)) p = 0 := by
  simp [votes]

theorem votes_update [DecidableEq ι] {j : ι} (hj : H j = none) (a : α) :
    votes (Function.update H j (some a)) p = votes H p + if p a then 1 else 0 := by
  have hfilter : (univ.filter fun k => (Function.update H j (some a) k).any p = true) =
      if p a then insert j (univ.filter fun k => (H k).any p = true)
      else univ.filter fun k => (H k).any p = true := by
    ext k
    by_cases hk : k = j
    · subst hk
      by_cases ha : p a <;> simp [ha, hj]
    · by_cases ha : p a <;> simp [ha, hk]
  unfold votes
  rw [hfilter]
  split_ifs with ha
  · rw [card_insert_of_notMem (by simp [hj])]
  · rfl

/-- Answers on one ballot which force answers on another one. -/
theorem votes_le_votes (h : ∀ j, (H j).any p → (G j).any q) : votes H p ≤ votes G q := by
  refine card_le_card fun j hj => ?_
  simp only [Finset.mem_filter, mem_univ, true_and] at hj ⊢
  exact h j hj

theorem votes_lt_votes (h : ∀ j, (H j).any p → (G j).any q) {k : ι} (hk : ¬(H k).any p)
    (hk' : (G k).any q) : votes H p < votes G q := by
  refine card_lt_card ⟨fun j hj => ?_, fun hsub => hk ?_⟩
  · simp only [Finset.mem_filter, mem_univ, true_and] at hj ⊢
    exact h j hj
  · have hmem := hsub (Finset.mem_filter.mpr ⟨mem_univ k, hk'⟩)
    exact (Finset.mem_filter.mp hmem).2

theorem votes_or [DecidableEq ι] (hpq : ∀ a, p a → q a = false) :
    votes H (fun a => p a || q a) = votes H p + votes H q := by
  unfold votes
  rw [← card_union_of_disjoint]
  · congr 1
    ext j
    cases hj : H j <;> simp [hj]
  · refine Finset.disjoint_left.mpr fun j hj hj' => ?_
    cases hH : H j with
    | none => simp [hH] at hj
    | some a => simp_all

/-- Answers which no voter gives on both ballots, and which nobody in `s` gives. -/
theorem votes_add_votes_le [DecidableEq ι] {s : Finset ι}
    (hdisj : ∀ j, (H j).any p → ¬(G j).any q) (hH : ∀ j ∈ s, ¬(H j).any p)
    (hG : ∀ j ∈ s, ¬(G j).any q) : votes H p + votes G q + s.card ≤ Fintype.card ι := by
  unfold votes
  rw [← card_union_of_disjoint, ← card_union_of_disjoint]
  · exact card_le_univ _
  · refine Finset.disjoint_left.mpr fun j hj hs => ?_
    rcases Finset.mem_union.mp hj with hj | hj
    · exact hH j hs (Finset.mem_filter.mp hj).2
    · exact hG j hs (Finset.mem_filter.mp hj).2
  · refine Finset.disjoint_left.mpr fun j hj hj' => ?_
    exact hdisj j (Finset.mem_filter.mp hj).2 (Finset.mem_filter.mp hj').2

/-- The voters outside `s`, all of whom give one of the two answers. -/
theorem card_le_votes_add_votes [DecidableEq ι] {s : Finset ι}
    (h : ∀ j, j ∉ s → (H j).any p ∨ (G j).any q) :
    Fintype.card ι ≤ votes H p + votes G q + s.card := by
  unfold votes
  have hcover : (univ : Finset ι) ⊆
      ((univ.filter fun j => (H j).any p = true) ∪
        univ.filter fun j => (G j).any q = true) ∪ s := by
    intro j _
    by_cases hj : j ∈ s
    · exact Finset.mem_union_right _ hj
    · refine Finset.mem_union_left _ ?_
      simpa using h j hj
  calc Fintype.card ι = (univ : Finset ι).card := rfl
    _ ≤ _ := card_le_card hcover
    _ ≤ _ := (card_union_le _ _).trans (Nat.add_le_add_right (card_union_le _ _) _)

end Ballot
