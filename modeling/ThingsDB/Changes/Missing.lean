import ThingsDB.Changes.Node

/-!
# The next missing change

`ti_changes_set_next_missing_id`, with the increments of the 64-bit id.
-/

namespace ThingsDB.Changes.Node

/-- The loop over the queue, and the increment after the loop. -/
def nextMissing (changeId : ℕ) : List Change → ℕ
  | [] => (changeId + 1) % 2 ^ 64
  | c :: cs =>
    if c.id ≤ changeId then nextMissing changeId cs
    else
      let next := (changeId + 1) % 2 ^ 64
      if c.id = next then nextMissing next cs else next

def setNextMissingId (s : Node) (changeId : ℕ) : ℕ :=
  nextMissing (if changeId < s.ccid then s.ccid else changeId) s.queue

/-- The ids of 64 bits above a given one which no change in the queue has. -/
def missingAbove (x : ℕ) (queue : List Change) : Set ℕ :=
  {id | id < 2 ^ 64 ∧ x < id ∧ ∀ c ∈ queue, c.id ≠ id}

/-- The least id is found, and zero if there is none. -/
structure FoundLeast (ids : Set ℕ) (next : ℕ) : Prop where
  least : ids.Nonempty → IsLeast ids next
  wrapped : ids = ∅ → next = 0

variable {x : ℕ} {c : Change} {cs : List Change}

theorem missingAbove_cons (h : c.id ≤ x + 1) :
    missingAbove x (c :: cs) = missingAbove (max x c.id) cs := by
  ext id
  simp only [missingAbove, Set.mem_ofPred_eq, List.forall_mem_cons]
  constructor
  · rintro ⟨hid, hx, hc, hcs⟩
    exact ⟨hid, by omega, hcs⟩
  · rintro ⟨hid, hx, hcs⟩
    exact ⟨hid, by omega, by omega, hcs⟩

/-- The successor is not in the queue. -/
theorem foundLeast_succ (hx : x + 1 < 2 ^ 64) (h : ∀ c ∈ cs, x + 1 < c.id) :
    FoundLeast (missingAbove x cs) (x + 1) := by
  have hmem : x + 1 ∈ missingAbove x cs := ⟨hx, Nat.lt_succ_self x, fun c hc => (h c hc).ne'⟩
  constructor
  · exact fun _ => ⟨hmem, fun id hid => hid.2.1⟩
  · intro hempty
    rw [hempty] at hmem
    exact absurd hmem (Set.notMem_empty _)

theorem nextMissing_spec (hx : x < 2 ^ 64) (hsorted : cs.Pairwise fun a b => a.id < b.id)
    (hids : ∀ c ∈ cs, c.id < 2 ^ 64) : FoundLeast (missingAbove x cs) (nextMissing x cs) := by
  induction cs generalizing x with
  | nil =>
    rw [nextMissing]
    by_cases hlast : x + 1 < 2 ^ 64
    · rw [Nat.mod_eq_of_lt hlast]
      exact foundLeast_succ hlast (by simp)
    · -- no id of 64 bits is left
      have hzero : (x + 1) % 2 ^ 64 = 0 := by omega
      constructor
      · rintro ⟨id, hid, hxid, -⟩
        omega
      · exact fun _ => hzero
  | cons c cs ih =>
    obtain ⟨hhead, htail⟩ := List.pairwise_cons.mp hsorted
    obtain ⟨hc, hcs⟩ := List.forall_mem_cons.mp hids
    rw [nextMissing]
    by_cases hle : c.id ≤ x
    · rw [if_pos hle, missingAbove_cons (by omega), max_eq_left hle]
      exact ih hx htail hcs
    · have hnext : (x + 1) % 2 ^ 64 = x + 1 := Nat.mod_eq_of_lt (by omega)
      simp only [if_neg hle, hnext]
      by_cases heq : c.id = x + 1
      · rw [if_pos heq, missingAbove_cons heq.le, heq, max_eq_right (Nat.le_succ x)]
        exact ih (by omega) htail hcs
      · rw [if_neg heq]
        apply foundLeast_succ (by omega)
        intro d hd
        rcases List.mem_cons.mp hd with rfl | hd
        · omega
        · have hlt := hhead d hd
          omega

/-- With a queue which is strictly increasing the id becomes the least one above itself and above
the committed id which no change in the queue has, unless all of them are in use. -/
theorem setNextMissingId_least (s : Node) (x : ℕ) (hx : x < 2 ^ 64) (hccid : s.ccid < 2 ^ 64)
    (hsorted : s.queue.Pairwise fun a b => a.id < b.id) (hids : ∀ c ∈ s.queue, c.id < 2 ^ 64) :
    FoundLeast {id | id < 2 ^ 64 ∧ x < id ∧ s.ccid < id ∧ ∀ c ∈ s.queue, c.id ≠ id}
      (s.setNextMissingId x) := by
  have hset : {id | id < 2 ^ 64 ∧ x < id ∧ s.ccid < id ∧ ∀ c ∈ s.queue, c.id ≠ id} =
      missingAbove (if x < s.ccid then s.ccid else x) s.queue := by
    ext id
    simp only [missingAbove, Set.mem_ofPred_eq]
    split_ifs
    · exact ⟨fun ⟨h, _, h', hq⟩ => ⟨h, h', hq⟩, fun ⟨h, h', hq⟩ => ⟨h, by omega, h', hq⟩⟩
    · exact ⟨fun ⟨h, h', _, hq⟩ => ⟨h, h', hq⟩, fun ⟨h, h', hq⟩ => ⟨h, h', by omega, hq⟩⟩
  rw [hset]
  apply nextMissing_spec _ hsorted hids
  split_ifs
  · exact hccid
  · exact hx

def gapNode : Node where
  nextUid := 4
  nextChangeId := 9
  ccid := 4
  queue := [3, 5, 6, 8].map fun id => ⟨id, id, .cpkg, .ready, 0, false, 0⟩
  skippedIds := .create
  waitCcid := 0
  waitGapTime := 0

theorem setNextMissingId_gap : gapNode.setNextMissingId 2 = 7 ∧
    FoundLeast {id | id < 2 ^ 64 ∧ 2 < id ∧ gapNode.ccid < id ∧
      ∀ c ∈ gapNode.queue, c.id ≠ id} (gapNode.setNextMissingId 2) :=
  ⟨by decide, setNextMissingId_least gapNode 2 (by decide) (by decide) (by decide) (by decide)⟩

end ThingsDB.Changes.Node
