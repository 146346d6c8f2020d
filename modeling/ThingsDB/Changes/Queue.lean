import ThingsDB.Changes.Node

/-!
# The order of the change queue

Every function of the administration keeps the queue strictly increasing by
change id, with all ids below the next change id, and keeps the committed id
below the next change id as well.
-/

namespace ThingsDB.Changes.Node

open List

/-- The queue invariant; the last two fields are what the assertions in
`ti_changes_add_change` and `changes__loop` rely on. -/
structure Ordered (s : Node) : Prop where
  sorted : s.queue.Pairwise fun a b => a.id < b.id
  distinct : s.queue.Pairwise fun a b => a.uid ≠ b.uid
  allocated : ∀ c ∈ s.queue, c.uid < s.nextUid
  below : ∀ c ∈ s.queue, c.id < s.nextChangeId
  committed : s.ccid < s.nextChangeId
  alive : ∀ c ∈ s.queue, c.status ≠ .cancel
  cpkgReady : ∀ c ∈ s.queue, c.tp = .cpkg → c.status = .ready

variable {s : Node} {cs : List Change} {c d : Change} {uid : ℕ}

theorem mem_insertChange (cs : List Change) : c ∈ insertChange d cs ↔ c = d ∨ c ∈ cs := by
  induction cs with
  | nil => simp [insertChange]
  | cons a as ih =>
    unfold insertChange
    split_ifs
    · simp only [mem_cons]
    · simp only [mem_cons, ih]
      tauto

theorem mem_push : c ∈ (s.push d).queue ↔ c = d ∨ c ∈ s.queue := by
  unfold push
  dsimp only
  split
  · simp only [mem_append, mem_singleton]
    tauto
  · split_ifs
    · simp only [mem_append, mem_singleton]
      tauto
    · exact mem_insertChange s.queue

section

variable (h : cs.Pairwise fun a b => a.id < b.id)

include h

theorem insertChange_sorted (hne : ∀ c ∈ cs, c.id ≠ d.id) :
    (insertChange d cs).Pairwise fun a b => a.id < b.id := by
  induction cs with
  | nil => simp [insertChange]
  | cons a as ih =>
    obtain ⟨hhead, htail⟩ := pairwise_cons.mp h
    unfold insertChange
    split_ifs with hlt
    · refine pairwise_cons.mpr ⟨?_, h⟩
      intro b hb
      rcases mem_cons.mp hb with rfl | hb
      · exact hlt
      · exact hlt.trans (hhead b hb)
    · have had := hne a mem_cons_self
      refine pairwise_cons.mpr ⟨?_, ih htail fun c hc => hne c (mem_cons_of_mem _ hc)⟩
      intro b hb
      rcases (mem_insertChange as).mp hb with rfl | hb
      · omega
      · exact hhead b hb

theorem sorted_concat (hlt : ∀ c ∈ cs, c.id < d.id) :
    (cs ++ [d]).Pairwise fun a b => a.id < b.id := by
  refine pairwise_append.mpr ⟨h, pairwise_singleton _ _, ?_⟩
  intro a ha b hb
  obtain rfl := mem_singleton.mp hb
  exact hlt a ha

/-- In a strictly increasing queue the last change has the highest id. -/
theorem id_le_getLast
    {last : Change} (hlast : cs.getLast? = some last) : ∀ c ∈ cs, c.id ≤ last.id := by
  obtain ⟨ys, rfl⟩ := getLast?_eq_some_iff.mp hlast
  intro c hc
  rcases mem_append.mp hc with hc | hc
  · exact ((pairwise_append.mp h).2.2 c hc last (by simp)).le
  · obtain rfl := mem_singleton.mp hc
    exact le_rfl

end

theorem push_sorted (h : s.queue.Pairwise fun a b => a.id < b.id)
    (hne : ∀ c ∈ s.queue, c.id ≠ d.id) :
    (s.push d).queue.Pairwise fun a b => a.id < b.id := by
  unfold push
  dsimp only
  split
  next hlast =>
    rw [getLast?_eq_none_iff.mp hlast]
    simp
  next last hlast =>
    split_ifs with hlt
    · exact sorted_concat h fun c hc => (id_le_getLast h hlast c hc).trans_lt hlt
    · exact insertChange_sorted h hne

theorem insertChange_perm (d : Change) (cs : List Change) : (insertChange d cs).Perm (d :: cs) := by
  induction cs with
  | nil => exact List.Perm.refl _
  | cons a as ih =>
    unfold insertChange
    split_ifs
    · exact List.Perm.refl _
    · exact (ih.cons a).trans (List.Perm.swap d a as)

theorem push_perm (s : Node) (d : Change) : (s.push d).queue.Perm (d :: s.queue) := by
  unfold push
  dsimp only
  split
  · exact perm_append_singleton d s.queue
  · split_ifs
    · exact perm_append_singleton d s.queue
    · exact insertChange_perm d s.queue

theorem push_distinct (h : s.queue.Pairwise fun a b => a.uid ≠ b.uid)
    (hne : ∀ c ∈ s.queue, c.uid ≠ d.uid) : (s.push d).queue.Pairwise fun a b => a.uid ≠ b.uid := by
  refine (push_perm s d).symm.pairwise ?_ fun {a b} hab => hab.symm
  exact pairwise_cons.mpr ⟨fun c hc => (hne c hc).symm, h⟩

/-- What a change needs to be queued: an unused id below the next change id and
an address which is not queued. -/
structure Queueable (s : Node) (d : Change) : Prop where
  id_ne : ∀ c ∈ s.queue, c.id ≠ d.id
  id_lt : d.id < s.nextChangeId
  uid_ne : ∀ c ∈ s.queue, c.uid ≠ d.uid
  uid_lt : d.uid < s.nextUid
  alive : d.status ≠ .cancel
  cpkgReady : d.tp = .cpkg → d.status = .ready

theorem Ordered.push (h : s.Ordered) (hd : s.Queueable d) :
    (s.push d).Ordered where
  sorted := push_sorted h.sorted hd.id_ne
  distinct := push_distinct h.distinct hd.uid_ne
  allocated := by
    intro c hc
    rcases mem_push.mp hc with rfl | hc
    · exact hd.uid_lt
    · exact h.allocated c hc
  below := by
    intro c hc
    rcases mem_push.mp hc with rfl | hc
    · exact hd.id_lt
    · exact h.below c hc
  committed := h.committed
  alive := by
    intro c hc
    rcases mem_push.mp hc with rfl | hc
    · exact hd.alive
    · exact h.alive c hc
  cpkgReady := by
    intro c hc
    rcases mem_push.mp hc with rfl | hc
    · exact hd.cpkgReady
    · exact h.cpkgReady c hc

theorem Ordered.of_sublist (h : s.Ordered)
    (hsub : cs.Sublist s.queue) : Ordered { s with queue := cs } where
  sorted := h.sorted.sublist hsub
  distinct := h.distinct.sublist hsub
  allocated := fun c hc => h.allocated c (hsub.subset hc)
  below := fun c hc => h.below c (hsub.subset hc)
  committed := h.committed
  alive := fun c hc => h.alive c (hsub.subset hc)
  cpkgReady := fun c hc => h.cpkgReady c (hsub.subset hc)

theorem Ordered.rmval (h : s.Ordered) (uid : ℕ) : (s.rmval uid).Ordered :=
  h.of_sublist eraseP_sublist

theorem Ordered.shift (h : s.Ordered) : s.shift.Ordered :=
  h.of_sublist (tail_sublist s.queue)

theorem mem_eraseP_uid (h : cs.Pairwise fun a b => a.uid ≠ b.uid) :
    c ∈ cs.eraseP (fun d => d.uid = uid) ↔ c ∈ cs ∧ c.uid ≠ uid := by
  induction cs with
  | nil => simp
  | cons a as ih =>
    obtain ⟨hhead, htail⟩ := pairwise_cons.mp h
    by_cases ha : a.uid = uid
    · rw [eraseP_cons_of_pos (by simpa using ha), mem_cons]
      constructor
      · intro hc
        exact ⟨Or.inr hc, fun he => hhead c hc (ha.trans he.symm)⟩
      · rintro ⟨rfl | hc, hne⟩
        · exact absurd ha hne
        · exact hc
    · rw [eraseP_cons_of_neg (by simpa using ha), mem_cons, mem_cons, ih htail]
      constructor
      · rintro (rfl | ⟨hc, hne⟩)
        · exact ⟨Or.inl rfl, ha⟩
        · exact ⟨Or.inr hc, hne⟩
      · rintro ⟨rfl | hc, hne⟩
        · exact Or.inl rfl
        · exact Or.inr ⟨hc, hne⟩

/-- After `queue_rmval` the change is gone, and nothing else is. -/
theorem mem_rmval (h : s.Ordered) : c ∈ (s.rmval uid).queue ↔ c ∈ s.queue ∧ c.uid ≠ uid :=
  mem_eraseP_uid h.distinct

theorem eq_of_mem_of_id_eq (h : cs.Pairwise fun a b => a.id < b.id) (hc : c ∈ cs) (hd : d ∈ cs)
    (hid : c.id = d.id) : c = d := by
  induction cs with
  | nil => simp at hc
  | cons a as ih =>
    obtain ⟨hhead, htail⟩ := pairwise_cons.mp h
    rcases mem_cons.mp hc with rfl | hcs <;> rcases mem_cons.mp hd with rfl | hds
    · rfl
    · exact absurd hid (hhead d hds).ne
    · exact absurd hid (hhead c hcs).ne'
    · exact ih htail hcs hds

section

variable (h : s.Ordered)

include h

theorem Ordered.raise {next ccid : ℕ} (huid : s.nextUid ≤ uid)
    (hnext : s.nextChangeId ≤ next) (hccid : ccid < next) :
    Ordered { s with nextUid := uid, nextChangeId := next, ccid := ccid } where
  sorted := h.sorted
  distinct := h.distinct
  allocated := fun c hc => (h.allocated c hc).trans_le huid
  below := fun c hc => (h.below c hc).trans_le hnext
  committed := hccid
  alive := h.alive
  cpkgReady := h.cpkgReady

theorem Ordered.map (f : Change → Change) (hid : ∀ c, (f c).id = c.id)
    (huid : ∀ c, (f c).uid = c.uid) (halive : ∀ c ∈ s.queue, (f c).status ≠ .cancel)
    (hready : ∀ c ∈ s.queue, (f c).tp = .cpkg → (f c).status = .ready) :
    Ordered { s with queue := s.queue.map f } where
  sorted := by
    refine pairwise_map.mpr (h.sorted.imp ?_)
    intro a b hab
    rw [hid, hid]
    exact hab
  distinct := by
    refine pairwise_map.mpr (h.distinct.imp ?_)
    intro a b hab
    rw [huid, huid]
    exact hab
  allocated := by
    intro c hc
    obtain ⟨d, hd, rfl⟩ := mem_map.mp hc
    rw [huid]
    exact h.allocated d hd
  below := by
    intro c hc
    obtain ⟨d, hd, rfl⟩ := mem_map.mp hc
    rw [hid]
    exact h.below d hd
  committed := h.committed
  alive := by
    intro c hc
    obtain ⟨d, hd, rfl⟩ := mem_map.mp hc
    exact halive d hd
  cpkgReady := by
    intro c hc
    obtain ⟨d, hd, rfl⟩ := mem_map.mp hc
    exact hready d hd

theorem Ordered.setReady (uid : ℕ) : (s.setReady uid).Ordered := by
  refine h.map _ ?_ ?_ ?_ ?_
  · intro c
    split_ifs <;> rfl
  · intro c
    split_ifs <;> rfl
  · intro c hc
    split_ifs
    · simp
    · exact h.alive c hc
  · intro c hc
    split_ifs
    · simp
    · exact h.cpkgReady c hc

theorem Ordered.mergeFlags (uid : ℕ) (allowGap : Bool) : (s.mergeFlags uid allowGap).Ordered := by
  refine h.map _ ?_ ?_ ?_ ?_
  · intro c
    split_ifs <;> rfl
  · intro c
    split_ifs <;> rfl
  · intro c hc
    split_ifs <;> exact h.alive c hc
  · intro c hc
    split_ifs <;> exact h.cpkgReady c hc

theorem Ordered.reqChangeId {requests : ℕ}
    (hne : ∀ d ∈ s.queue, d.uid ≠ c.uid) (hlt : c.uid < s.nextUid) (hstatus : c.status = .new)
    (htp : c.tp = .master) : (s.reqChangeId c requests).2.Ordered := by
  have hc := h.committed
  refine (h.raise le_rfl (Nat.le_succ _) (hc.trans (Nat.lt_succ_self _))).push ?_
  exact ⟨fun d hd => (h.below d hd).ne, Nat.lt_succ_self _, hne, hlt,
    by simp [hstatus], by simp [htp]⟩

end

/-- The answer to a request never touches the queue. -/
theorem acceptId_queue (s : Node) (x : ℕ) : (s.acceptId x).2.queue = s.queue := by
  unfold acceptId
  split_ifs
  · rfl
  · rfl
  · split <;> rfl

theorem acceptId_ccid (s : Node) (x : ℕ) : (s.acceptId x).2.ccid = s.ccid := by
  unfold acceptId
  split_ifs
  · rfl
  · rfl
  · split <;> rfl

theorem acceptId_nextUid (s : Node) (x : ℕ) : (s.acceptId x).2.nextUid = s.nextUid := by
  unfold acceptId
  split_ifs
  · rfl
  · rfl
  · split <;> rfl

theorem nextChangeId_le_acceptId (s : Node) (x : ℕ) :
    s.nextChangeId ≤ (s.acceptId x).2.nextChangeId := by
  unfold acceptId
  split_ifs with heq hlt
  · exact Nat.le_succ _
  · dsimp only
    omega
  · split <;> exact le_rfl

theorem Ordered.acceptId (h : s.Ordered) (x : ℕ) : (s.acceptId x).2.Ordered := by
  have hq := acceptId_queue s x
  have hn := nextChangeId_le_acceptId s x
  refine ⟨hq ▸ h.sorted, hq ▸ h.distinct, ?_, ?_, ?_, hq ▸ h.alive, hq ▸ h.cpkgReady⟩
  · rw [hq, acceptId_nextUid]
    exact h.allocated
  · rw [hq]
    exact fun c hc => (h.below c hc).trans_le hn
  · rw [acceptId_ccid]
    exact h.committed.trans_le hn

/-- What a received package leaves alone. -/
structure Keeps (s s' : Node) : Prop where
  uid : s.nextUid ≤ s'.nextUid
  next : s.nextChangeId ≤ s'.nextChangeId
  ccid : s'.ccid = s.ccid
  skipped : s'.skippedIds = s.skippedIds

theorem addCpkg_keeps (s : Node) (id : ℕ) (allowGap : Bool) (time : ℚ) :
    s.Keeps (s.addCpkg id allowGap time) :=
  ⟨Nat.le_succ _, le_rfl, rfl, rfl⟩

theorem Ordered.addCpkg (h : s.Ordered) {id : ℕ} (hne : ∀ c ∈ s.queue, c.id ≠ id)
    (hlt : id < s.nextChangeId) (allowGap : Bool) (time : ℚ) :
    (s.addCpkg id allowGap time).Ordered := by
  refine (h.raise (Nat.le_succ _) le_rfl h.committed).push ?_
  exact ⟨hne, hlt, fun c hc => (h.allocated c hc).ne, Nat.lt_succ_self _, by simp, by simp⟩

/-- On an ordered queue the assertion of `ti_changes_add_change` holds: a queued
change which is not ready is never a package. -/
theorem addQueued_ordered (h : s.Ordered) {id : ℕ} (hlt : id < s.nextChangeId)
    (allowGap : Bool) (time : ℚ) : ∃ b s', s.addQueued id allowGap time = some (b, s') ∧
      s'.Ordered ∧ s.Keeps s' := by
  unfold addQueued
  split
  next hnone =>
    have hne : ∀ c ∈ s.queue, c.id ≠ id := by simpa using hnone
    exact ⟨true, _, rfl, h.addCpkg hne hlt allowGap time, addCpkg_keeps s id allowGap time⟩
  next c hsome =>
    have hmem : c ∈ s.queue := mem_reverse.mp (mem_of_find?_eq_some hsome)
    have hcid : c.id = id := by simpa using find?_some hsome
    split
    next => exact ⟨false, s, rfl, h, le_rfl, le_rfl, rfl, rfl⟩
    next => exact ⟨false, _, rfl, h.mergeFlags c.uid allowGap, le_rfl, le_rfl, rfl, rfl⟩
    next htp hnotReady =>
      exact absurd (h.cpkgReady c hmem htp) (by simpa using hnotReady)
    next =>
      refine ⟨true, _, rfl, (h.rmval c.uid).addCpkg ?_ hlt allowGap time,
        Nat.le_succ _, le_rfl, rfl, rfl⟩
      intro d hd hdid
      obtain ⟨hds, hne⟩ := (mem_rmval h).mp hd
      exact hne (congrArg Change.uid 
        (eq_of_mem_of_id_eq h.sorted hds hmem (hdid.trans hcid.symm)))

theorem addChange_ordered (h : s.Ordered) (id : ℕ) (allowGap : Bool) (time : ℚ) :
    ∃ b s', s.addChange id allowGap time = some (b, s') ∧ s'.Ordered ∧ s.Keeps s' := by
  unfold addChange
  by_cases hgap : s.nextChangeId < id ∧ maxIdGap < id - s.nextChangeId
  · exact ⟨false, s, if_pos hgap, h, le_rfl, le_rfl, rfl, rfl⟩
  rw [if_neg hgap]
  by_cases hold : id ≤ s.ccid
  · exact ⟨false, s, if_pos hold, h, le_rfl, le_rfl, rfl, rfl⟩
  rw [if_neg hold]
  have hnext : s.nextChangeId ≤ (if s.nextChangeId ≤ id then id + 1 else s.nextChangeId) := by
    split_ifs <;> omega
  have hid : id < (if s.nextChangeId ≤ id then id + 1 else s.nextChangeId) := by
    split_ifs <;> omega
  obtain ⟨b, s', heq, ho, hk⟩ :=
    addQueued_ordered (h.raise le_rfl hnext (h.committed.trans_le hnext)) hid allowGap time
  exact ⟨b, s', heq, ho, hk.uid, hnext.trans hk.next, hk.ccid, hk.skipped⟩

end ThingsDB.Changes.Node
