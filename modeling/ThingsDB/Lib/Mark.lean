import Mathlib.Tactic

/-!
# Depth-first marking

A walk over a graph which visits a node only if it is not marked yet. The fuel bounds
the depth; as many steps as there are nodes without a mark are enough, since a node is
marked before its successors are visited.
-/

namespace Mark

variable {α : Type*} [DecidableEq α] {succ : α → List α}
variable {as bs : List α} {u v w : Finset α}

/-- Visit those of the nodes which are not marked, where `u` are the nodes without a mark. -/
def visitAll (visit : α → Finset α → Finset α) : List α → Finset α → Finset α
  | [], u => u
  | a :: as, u => visitAll visit as (if a ∈ u then visit a u else u)

/-- Mark a node and visit its successors. -/
def visit (succ : α → List α) : ℕ → α → Finset α → Finset α
  | 0, _, u => u
  | fuel + 1, a, u => visitAll (visit succ fuel) (succ a) (u.erase a)

def Path (succ : α → List α) : α → α → Prop :=
  Relation.ReflTransGen fun a b => b ∈ succ a

/-- The nodes of `u` which are not in `v` have been marked, from `as` on. -/
structure Marks (succ : α → List α) (as : List α) (u v : Finset α) : Prop where
  subset : v ⊆ u
  start : ∀ a ∈ as, a ∉ v
  path : ∀ b ∈ u, b ∉ v → ∃ a ∈ as, Path succ a b
  closed : ∀ b ∈ u, b ∉ v → ∀ c ∈ succ b, c ∉ v

theorem visitAll_append (f : α → Finset α → Finset α) (as bs : List α) (u : Finset α) :
    visitAll f (as ++ bs) u = visitAll f bs (visitAll f as u) := by
  induction as generalizing u with
  | nil => rfl
  | cons a as ih => exact ih _

namespace Marks

omit [DecidableEq α] in
theorem refl (u : Finset α) : Marks succ [] u u where
  subset := Finset.Subset.refl u
  start := by simp
  path := fun b hb hnb => absurd hb hnb
  closed := fun b hb hnb => absurd hb hnb

omit [DecidableEq α] in
theorem trans (h : Marks succ as u v) (h' : Marks succ bs v w) : Marks succ (as ++ bs) u w where
  subset := h'.subset.trans h.subset
  start := by
    intro a ha
    rcases List.mem_append.mp ha with ha | ha
    · exact fun haw => h.start a ha (h'.subset haw)
    · exact h'.start a ha
  path := by
    intro b hb hbw
    by_cases hbv : b ∈ v
    · obtain ⟨a, ha, hab⟩ := h'.path b hbv hbw
      exact ⟨a, List.mem_append_right as ha, hab⟩
    · obtain ⟨a, ha, hab⟩ := h.path b hb hbv
      exact ⟨a, List.mem_append_left bs ha, hab⟩
  closed := by
    intro b hb hbw c hc
    by_cases hbv : b ∈ v
    · exact h'.closed b hbv hbw c hc
    · exact fun hcw => h.closed b hb hbv c hc (h'.subset hcw)

omit [DecidableEq α] in
theorem skip {a : α} (ha : a ∉ u) : Marks succ [a] u u where
  subset := Finset.Subset.refl u
  start := by simpa using ha
  path := fun b hb hnb => absurd hb hnb
  closed := fun b hb hnb => absurd hb hnb

/-- A node is marked together with what is found from its successors on. -/
theorem node {a : α} (h : Marks succ (succ a) (u.erase a) v) : Marks succ [a] u v where
  subset := h.subset.trans (Finset.erase_subset a u)
  start := by
    intro b hb hbv
    rw [List.mem_singleton.mp hb] at hbv
    exact Finset.notMem_erase a u (h.subset hbv)
  path := by
    intro b hb hbv
    refine ⟨a, List.mem_singleton_self a, ?_⟩
    by_cases hba : b = a
    · rw [hba]
      exact Relation.ReflTransGen.refl
    · obtain ⟨c, hc, hcb⟩ := h.path b (Finset.mem_erase.mpr ⟨hba, hb⟩) hbv
      exact Relation.ReflTransGen.head hc hcb
  closed := by
    intro b hb hbv
    by_cases hba : b = a
    · rw [hba]
      exact h.start
    · exact h.closed b (Finset.mem_erase.mpr ⟨hba, hb⟩) hbv

omit [DecidableEq α] in
/-- If everything on a path is in `u` then the nodes on it are marked, and no others. -/
theorem notMem_iff (h : Marks succ as u v) (hall : ∀ a ∈ as, ∀ b, Path succ a b → b ∈ u) {b : α}
    (hb : b ∈ u) : b ∉ v ↔ ∃ a ∈ as, Path succ a b := by
  constructor
  · exact h.path b hb
  · rintro ⟨a, ha, hab⟩
    induction hab with
    | refl => exact h.start a ha
    | tail hpath hstep ih =>
      have hmem := hall a ha _ hpath
      exact h.closed _ hmem (ih hmem) _ hstep

end Marks

/-- The walk over a list, by what a visit of one node does. -/
theorem marks_visitAll {f : α → Finset α → Finset α}
    (hf : ∀ a v, v ⊆ u → a ∈ v → Marks succ [a] v (f a v)) (as : List α) :
    ∀ v, v ⊆ u → Marks succ as v (visitAll f as v) := by
  induction as with
  | nil =>
    intro v _
    exact Marks.refl v
  | cons a as ih =>
    intro v hv
    have hone : Marks succ [a] v (if a ∈ v then f a v else v) := by
      split_ifs with ha
      · exact hf a v hv ha
      · exact Marks.skip ha
    exact hone.trans (ih _ (hone.subset.trans hv))

/-- Enough fuel marks everything there is to mark. -/
theorem marks_visit (fuel : ℕ) :
    ∀ (a : α) (u : Finset α), (u.erase a).card < fuel → Marks succ [a] u (visit succ fuel a u) := by
  induction fuel with
  | zero =>
    intro a u h
    simp at h
  | succ fuel ih =>
    intro a u h
    apply Marks.node
    apply marks_visitAll (u := u.erase a) _ _ _ (Finset.Subset.refl _)
    intro b v hv hb
    apply ih
    have hcard := Finset.card_le_card hv
    have hpos := Finset.card_pos.mpr ⟨b, hb⟩
    rw [Finset.card_erase_of_mem hb]
    omega

theorem marks_walk (as : List α) (u : Finset α) :
    Marks succ as u (visitAll (visit succ (u.card + 1)) as u) := by
  apply marks_visitAll (u := u) _ as u (Finset.Subset.refl u)
  intro a v hv _
  apply marks_visit
  have hcard := Finset.card_le_card ((Finset.erase_subset a v).trans hv)
  omega

end Mark
