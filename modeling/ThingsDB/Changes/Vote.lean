import ThingsDB.Changes.Loop

/-!
# One vote per change id

The vote of a node for a change id is spent once the next change id has passed
it and it is not remembered as skipped. Accepting an id and proposing an id both
spend the vote, and no function of the administration gives it back.
-/

namespace ThingsDB.Changes.Node

open Util

/-- The vote for `x` can no longer be given. -/
def Spent (s : Node) (x : ℕ) : Prop :=
  x < s.nextChangeId ∧ x ∉ s.skippedIds

/-- An ordered administration whose skipped ids have been passed. -/
structure Fair (s : Node) : Prop extends s.Ordered where
  skippedBelow : ∀ x ∈ s.skippedIds, x < s.nextChangeId

structure Initial (s : Node) : Prop where
  queue : s.queue = []
  skipped : s.skippedIds = Olist.create
  committed : s.ccid < s.nextChangeId

def boot (ccid : ℕ) : Node := ⟨0, ccid + 1, ccid, [], Olist.create, 0, 0⟩

theorem boot_initial (ccid : ℕ) : (boot ccid).Initial := ⟨rfl, rfl, Nat.lt_succ_self ccid⟩

variable {s : Node} {x : ℕ} {cs : List Change} {ids : List ℕ}

theorem Initial.fair (h : s.Initial) : s.Fair where
  sorted := by simp [h.queue]
  distinct := by simp [h.queue]
  allocated := by simp [h.queue]
  below := by simp [h.queue]
  committed := h.committed
  alive := by simp [h.queue]
  cpkgReady := by simp [h.queue]
  skippedBelow := by simp [h.skipped]

theorem mem_skip {n next : ℕ} (l : Olist) :
    x ∈ skip n l next ↔ x ∈ l ∨ (next ≤ x ∧ x < next + n) := by
  induction n generalizing l next with
  | zero =>
    have hempty : ¬(next ≤ x ∧ x < next + 0) := by omega
    simp only [skip, hempty, or_false]
  | succ n ih =>
    simp only [skip, ih, Olist.mem_set]
    by_cases hx : x = next
    · subst hx
      simp
    · simp only [hx, false_or]
      refine or_congr_right ?_
      omega

variable {l : Olist} {s' : Node} {ccid : ℕ}

theorem mem_of_mem_takeSkipped {i : ℕ} (h : i ∈ (takeSkipped ccid x ids l).2) : i ∈ l := by
  induction ids generalizing l with
  | nil => exact h
  | cons a as ih =>
    unfold takeSkipped at h
    split_ifs at h with hold heq hgt
    · exact ((Olist.mem_rm l a i).mp (ih h)).1
    · exact ((Olist.mem_rm l a i).mp h).1
    · exact h
    · exact ih h

/-- A skipped id is accepted only above the committed id, and is then removed. -/
theorem takeSkipped_accept
    (hids : x ∈ ids → ccid < x → x ∈ l) (h : (takeSkipped ccid x ids l).1 = .accept) :
    x ∈ l ∧ ccid < x ∧ x ∉ (takeSkipped ccid x ids l).2 := by
  induction ids generalizing l with
  | nil => simp [takeSkipped] at h
  | cons a as ih =>
    unfold takeSkipped at h ⊢
    split_ifs at h ⊢ with hold heq hgt
    · have hkeep : x ∈ as → ccid < x → x ∈ l.rm a := fun hx hlt =>
        (Olist.mem_rm l a x).mpr ⟨hids (List.mem_cons_of_mem a hx) hlt, by omega⟩
      obtain ⟨hx, hlt, hout⟩ := ih hkeep h
      exact ⟨((Olist.mem_rm l a x).mp hx).1, hlt, hout⟩
    · subst heq
      exact ⟨hids List.mem_cons_self (by omega), by omega, by simp⟩
    · exact ih (fun hx => hids (List.mem_cons_of_mem a hx)) h

theorem takeSkipped_ne_collision (ccid x : ℕ) (ids : List ℕ) (l : Olist) (n : ℕ) :
    (takeSkipped ccid x ids l).1 ≠ .collision n := by
  induction ids generalizing l with
  | nil => simp [takeSkipped]
  | cons a as ih =>
    unfold takeSkipped
    split_ifs
    · exact ih (l.rm a)
    · simp
    · simp
    · exact ih l

/-- The walk over a sorted queue finds every change with the given id. -/
theorem findQueued_eq_none
    (h : cs.Pairwise fun a b => a.id < b.id) (hnone : findQueued x cs = none) :
    ∀ c ∈ cs, c.id ≠ x := by
  induction cs with
  | nil => simp
  | cons a as ih =>
    obtain ⟨hhead, htail⟩ := List.pairwise_cons.mp h
    unfold findQueued at hnone
    split_ifs at hnone with hgt heq
    · intro c hc
      rcases List.mem_cons.mp hc with rfl | hc
      · omega
      · have := hhead c hc
        omega
    · intro c hc
      rcases List.mem_cons.mp hc with rfl | hc
      · exact heq
      · exact ih htail hnone c hc

theorem findQueued_eq_some {c : Change} (h : findQueued x cs = some c) : c ∈ cs ∧ c.id = x := by
  induction cs with
  | nil => simp [findQueued] at h
  | cons a as ih =>
    unfold findQueued at h
    split_ifs at h with hgt heq
    · exact ⟨by simp_all, by simp_all⟩
    · obtain ⟨hc, hid⟩ := ih h
      exact ⟨List.mem_cons_of_mem a hc, hid⟩

/-- When an id is accepted, the vote was there, and it is spent afterwards. -/
structure Grants (s : Node) (x : ℕ) (s' : Node) : Prop where
  open_before : ¬s.Spent x
  spent_after : s'.Spent x
  above : s.ccid < x
  unqueued : ∀ c ∈ s.queue, c.id ≠ x

theorem acceptId_grants (h : s.Fair) (hacc : (s.acceptId x).1 = .accept) :
    s.Grants x (s.acceptId x).2 := by
  have hcommitted := h.committed
  have hqueue : s.nextChangeId ≤ x → ∀ c ∈ s.queue, c.id ≠ x := by
    intro hle c hc
    have := h.below c hc
    omega
  have hskipped : s.nextChangeId ≤ x → x ∉ s.skippedIds := by
    intro hle hx
    have := h.skippedBelow x hx
    omega
  unfold acceptId at hacc ⊢
  split_ifs at hacc ⊢ with heq hlt
  · exact ⟨fun hs => by have := hs.1; omega, ⟨by dsimp only; omega, hskipped heq.ge⟩, by omega,
      hqueue heq.ge⟩
  · refine ⟨fun hs => by have := hs.1; omega, ⟨by dsimp only; omega, ?_⟩, by omega, hqueue hlt.le⟩
    rw [mem_skip]
    have := hskipped hlt.le
    rintro (hx | hx)
    · exact this hx
    · omega
  · cases hf : findQueued x s.queue with
    | some c =>
      simp only [hf] at hacc
      split_ifs at hacc
    | none =>
      simp only [hf] at hacc ⊢
      obtain ⟨hx, hgt, hout⟩ := takeSkipped_accept (fun hx _ => hx) hacc
      exact ⟨fun hs => hs.2 hx, ⟨by dsimp only; omega, hout⟩, hgt, findQueued_eq_none h.sorted hf⟩

theorem Spent.acceptId {y : ℕ} (h : s.Spent x) : (s.acceptId y).2.Spent x := by
  obtain ⟨hlt, hskip⟩ := h
  refine ⟨hlt.trans_le (nextChangeId_le_acceptId s y), ?_⟩
  unfold Node.acceptId
  split_ifs with heq hlt'
  · exact hskip
  · rw [mem_skip]
    rintro (hx | hx)
    · exact hskip hx
    · omega
  · split
    · exact hskip
    · exact fun hx => hskip (mem_of_mem_takeSkipped hx)

theorem Spent.of_le (h : s.Spent x) (hnext : s.nextChangeId ≤ s'.nextChangeId)
    (hskip : s'.skippedIds = s.skippedIds) : s'.Spent x :=
  ⟨h.1.trans_le hnext, hskip ▸ h.2⟩

theorem Fair.of_ordered (h : s.Fair) (ho : s'.Ordered)
    (hnext : s.nextChangeId ≤ s'.nextChangeId) (hskip : s'.skippedIds = s.skippedIds) : s'.Fair :=
  ⟨ho, fun x hx => (h.skippedBelow x (hskip ▸ hx)).trans_le hnext⟩

theorem Fair.acceptId (h : s.Fair) (x : ℕ) : (s.acceptId x).2.Fair := by
  refine ⟨h.toOrdered.acceptId x, ?_⟩
  have hbelow := h.skippedBelow
  unfold Node.acceptId
  split_ifs with heq hlt
  · intro i hi
    exact (hbelow i hi).trans (Nat.lt_succ_self _)
  · intro i hi
    rcases (mem_skip s.skippedIds).mp hi with hi | hi
    · have := hbelow i hi
      dsimp only
      omega
    · dsimp only
      omega
  · split
    · exact hbelow
    · exact fun i hi => hbelow i (mem_of_mem_takeSkipped hi)

/-- Proposing takes an id nobody was promised, and spends the vote for it. -/
theorem reqChangeId_spent (h : s.Fair) (c : Change) (requests : ℕ) :
    ¬s.Spent s.nextChangeId ∧ (s.reqChangeId c requests).2.Spent s.nextChangeId := by
  refine ⟨fun hs => lt_irrefl _ hs.1, Nat.lt_succ_self _, ?_⟩
  exact fun hx => lt_irrefl _ (h.skippedBelow _ hx)

end ThingsDB.Changes.Node
