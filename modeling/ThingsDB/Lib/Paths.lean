import Mathlib.Algebra.BigOperators.Group.Finset.Basic
import Mathlib.Data.Finset.Preimage
import Mathlib.Data.Fintype.Basic
import Mathlib.Order.SymmDiff
import Mathlib.Tactic.Common

/-!
# Finite sets of paths

A finite set of lists over a finite alphabet, split at the first letter, and sets made of two
others member by member.
-/

namespace Paths

open Finset

variable {β : Type*}

/-- What follows a letter in the members which start with it. -/
noncomputable def tails (P : Finset (List β)) (k : β) : Finset (List β) :=
  P.preimage (k :: ·) (List.cons_injective.injOn)

variable {f : Bool → Bool → Bool} {P : Finset (List β)}

@[simp]
theorem mem_tails {k : β} {p : List β} : p ∈ tails P k ↔ k :: p ∈ P :=
  mem_preimage

theorem ext_tails {Q : Finset (List β)} (hnil : [] ∈ P ↔ [] ∈ Q)
    (htails : ∀ k, tails P k = tails Q k) : P = Q := by
  ext p
  cases p with
  | nil => exact hnil
  | cons k p => rw [← mem_tails, htails, mem_tails]

variable [DecidableEq β]

/-- The members are the empty path, if it is one, and those which start with each letter. -/
theorem card_eq [Fintype β] (P : Finset (List β)) :
    P.card = (if [] ∈ P then 1 else 0) + ∑ k, (tails P k).card := by
  have hsplit : P = (P.filter (· = [])) ∪
      univ.biUnion fun k => (tails P k).image (k :: ·) := by
    ext p
    cases p with
    | nil => simp
    | cons k p => simp
  have hnil : (P.filter (· = [])).card = if [] ∈ P then 1 else 0 := by
    by_cases h : [] ∈ P
    · rw [if_pos h, filter_eq' P [], if_pos h, card_singleton]
    · rw [if_neg h, filter_eq' P [], if_neg h, card_empty]
  have hdisjoint : Disjoint (P.filter (· = []))
      (univ.biUnion fun k => (tails P k).image (k :: ·)) := by
    rw [Finset.disjoint_left]
    intro p hp hcons
    rw [(Finset.mem_filter.mp hp).2] at hcons
    simp at hcons
  have hpairs : ∀ k ∈ (univ : Finset β), ∀ j ∈ (univ : Finset β), k ≠ j →
      Disjoint ((tails P k).image (k :: ·)) ((tails P j).image (j :: ·)) := by
    intro k _ j _ hne
    rw [Finset.disjoint_left]
    intro p hk hj
    obtain ⟨q, -, rfl⟩ := mem_image.mp hk
    obtain ⟨r, -, hr⟩ := mem_image.mp hj
    exact hne (List.cons.inj hr).1.symm
  conv_lhs => rw [hsplit]
  rw [card_union_of_disjoint hdisjoint, hnil, card_biUnion hpairs]
  congr 1
  exact sum_congr rfl fun k _ => card_image_of_injective _ List.cons_injective

/-- The members of two sets which a test on both memberships keeps. -/
def merged (f : Bool → Bool → Bool) (P Q : Finset β) : Finset β :=
  (P ∪ Q).filter fun p => f (p ∈ P) (p ∈ Q)

theorem mem_merged (hf : f false false = false)
    {P Q : Finset β} {p : β} : p ∈ merged f P Q ↔ f (p ∈ P) (p ∈ Q) := by
  by_cases hP : p ∈ P <;> by_cases hQ : p ∈ Q <;> simp [merged, hP, hQ, hf]

theorem tails_merged (hf : f false false = false) (P Q : Finset (List β)) (k : β) :
    tails (merged f P Q) k = merged f (tails P k) (tails Q k) := by
  ext p
  rw [mem_tails, mem_merged hf, mem_merged hf]
  simp only [mem_tails]

theorem merged_empty_right (hf : ∀ x, f x false = x) (P : Finset β) : merged f P ∅ = P := by
  ext p
  simp [mem_merged (hf false), hf]

theorem merged_empty_left (hf : ∀ x, f false x = x) (P : Finset β) : merged f ∅ P = P := by
  ext p
  simp [mem_merged (hf false), hf]

theorem merged_or (P Q : Finset β) : merged or P Q = P ∪ Q := by
  ext p
  simp [mem_merged]

theorem merged_and (P Q : Finset β) : merged and P Q = P ∩ Q := by
  ext p
  simp [mem_merged]

theorem merged_diff (P Q : Finset β) : merged (fun a b => a && !b) P Q = P \ Q := by
  ext p
  simp [mem_merged]

theorem merged_xor (P Q : Finset β) : merged xor P Q = symmDiff P Q := by
  ext p
  by_cases hP : p ∈ P <;> by_cases hQ : p ∈ Q <;>
    simp [mem_merged, mem_symmDiff, hP, hQ]

end Paths
