import ThingsDB.Changes.Poll

/-!
# The votes in a cluster

A node answers a request with what its administration knows. Over any sequence
of events a node accepts an id for at most one proposer, never after it has
proposed the id itself, and a collision tells how many requests it has sent.
-/

namespace ThingsDB.Changes

open Function

variable {N : ℕ} {i j : Fin N} {x : ℕ}

/-- A collision is with a change of this node which is queued. -/
theorem Node.acceptId_collision {s : Node} {n : ℕ} (h : (s.acceptId x).1 = .collision n) :
    ∃ d ∈ s.queue, d.id = x ∧ d.tp = .master ∧ d.requests = n := by
  unfold Node.acceptId at h
  split_ifs at h
  cases hf : Node.findQueued x s.queue with
  | none =>
    simp only [hf] at h
    exact absurd h (Node.takeSkipped_ne_collision s.ccid x s.skippedIds.ids s.skippedIds n)
  | some d =>
    simp only [hf] at h
    obtain ⟨hd, hid⟩ := Node.findQueued_eq_some hf
    split_ifs at h with htp
    exact ⟨d, hd, hid, htp, by simpa using h⟩

/-- The requests which are sent for a proposal of `i`. -/
def Poll.sentBy (i : Fin N) (v : View N) : Poll N := .start fun j => decide (j ≠ i) && v.sends j

namespace Cluster

variable {c : Cluster N}

/-- The part of the invariant of a cluster which concerns the votes. -/
structure Votes (c : Cluster N) : Prop where
  fair : ∀ i, (c.node i).Fair
  queued : ∀ i, ∀ d ∈ (c.node i).queue, d.tp = .master →
    (c.poll (i, d.id)).proposed = true ∧ d.requests + 1 = ((c.poll (i, d.id)).voters i).card
  spent : ∀ i x, (c.poll (i, x)).proposed = true → (c.node i).Spent x
  accepted : ∀ i x j, (c.poll (i, x)).answer j = some .accept →
    (c.node j).Spent x ∧ (c.poll (j, x)).proposed = false
  oneVote : ∀ i k x j, (c.poll (i, x)).answer j = some .accept →
    (c.poll (k, x)).answer j = some .accept → i = k
  collision : ∀ i x j n, (c.poll (i, x)).answer j = some (.collision n) →
    (c.poll (j, x)).proposed = true ∧ n + 1 = ((c.poll (j, x)).voters j).card

theorem Votes.of_poll (h : c.Votes) {poll : Fin N × ℕ → Poll N}
    (hproposed : ∀ p, (poll p).proposed = (c.poll p).proposed)
    (hsent : ∀ p, (poll p).sent = (c.poll p).sent)
    (hanswer : ∀ p, (poll p).answer = (c.poll p).answer) : Votes { c with poll := poll } where
  fair := h.fair
  queued := by
    intro i d hd htp
    simp only [hproposed, Poll.voters, hsent]
    exact h.queued i d hd htp
  spent := by
    intro i x
    simp only [hproposed]
    exact h.spent i x
  accepted := by
    intro i x j
    simp only [hproposed, hanswer]
    exact h.accepted i x j
  oneVote := by
    intro i k x j
    simp only [hanswer]
    exact h.oneVote i k x j
  collision := by
    intro i x j n
    simp only [hproposed, Poll.voters, hsent, hanswer]
    exact h.collision i x j n

/-- A change of one administration which keeps the votes, the ids and the requests. -/
structure Mild (s s' : Node) : Prop where
  fair : s'.Fair
  spent : ∀ x, s.Spent x → s'.Spent x
  queue : ∀ d ∈ s'.queue, ∃ e ∈ s.queue, d.id = e.id ∧ d.tp = e.tp ∧ d.requests = e.requests

theorem Votes.of_node (h : c.Votes) {s : Node} (hs : Mild (c.node i) s) :
    Votes { c with node := update c.node i s } := by
  have hspent : ∀ j x, (c.node j).Spent x → (update c.node i s j).Spent x := by
    intro j x hj
    by_cases hji : j = i
    · subst hji
      rw [update_self]
      exact hs.spent x hj
    · rwa [update_of_ne hji]
  refine ⟨?_, ?_, fun j x hj => hspent j x (h.spent j x hj), ?_, h.oneVote, h.collision⟩
  · intro j
    by_cases hji : j = i
    · subst hji
      simpa using hs.fair
    · simpa [hji] using h.fair j
  · intro j d hd htp
    by_cases hji : j = i
    · subst hji
      obtain ⟨e, he, hid, htp', hreq⟩ := hs.queue d (by simpa using hd)
      rw [hid, hreq]
      exact h.queued j e he (htp' ▸ htp)
    · exact h.queued j d (by simpa [hji] using hd) htp
  · intro k x j hj
    exact ⟨hspent j x (h.accepted k x j hj).1, (h.accepted k x j hj).2⟩

/-- What an answer of `j` to a request for `x` promises. -/
structure Honest (c : Cluster N) (x : ℕ) (j : Fin N) (a : Answer) : Prop where
  accept : a = .accept → (c.node j).Spent x ∧ (c.poll (j, x)).proposed = false ∧
    ∀ k, (c.poll (k, x)).answer j ≠ some .accept
  collision : ∀ n, a = .collision n → (c.poll (j, x)).proposed = true ∧
    n + 1 = ((c.poll (j, x)).voters j).card

theorem reply_answer_eq_some {a b : Answer} {i' : Fin N} {x' : ℕ} {j' : Fin N}
    (h : (update c.poll (i, x) ((c.poll (i, x)).reply j a) (i', x')).answer j' = some b) :
    (c.poll (i', x')).answer j' = some b ∨ (i' = i ∧ x' = x ∧ j' = j ∧ b = a) := by
  by_cases hp : (i', x') = (i, x)
  · obtain ⟨rfl, rfl⟩ := Prod.mk.inj hp
    rw [update_self, Poll.reply_answer] at h
    by_cases hj : j' = j
    · subst hj
      rw [update_self] at h
      exact Or.inr ⟨rfl, rfl, rfl, (Option.some.inj h).symm⟩
    · rw [update_of_ne hj] at h
      exact Or.inl h
  · rw [update_of_ne hp] at h
    exact Or.inl h

theorem Votes.reply (h : c.Votes) {a : Answer} (ha : c.Honest x j a) :
    Votes { c with poll := update c.poll (i, x) ((c.poll (i, x)).reply j a) } := by
  have hproposed : ∀ p, (update c.poll (i, x) ((c.poll (i, x)).reply j a) p).proposed =
      (c.poll p).proposed := by
    intro p
    by_cases hp : p = (i, x)
    · rw [hp, update_self]
      rfl
    · rw [update_of_ne hp]
  have hsent : ∀ p, (update c.poll (i, x) ((c.poll (i, x)).reply j a) p).sent =
      (c.poll p).sent := by
    intro p
    by_cases hp : p = (i, x)
    · rw [hp, update_self]
      rfl
    · rw [update_of_ne hp]
  refine ⟨h.fair, ?_, ?_, ?_, ?_, ?_⟩
  · simp only [hproposed, Poll.voters, hsent]
    exact h.queued
  · simp only [hproposed]
    exact h.spent
  · simp only [hproposed]
    intro k y l hl
    rcases reply_answer_eq_some hl with hl | ⟨rfl, rfl, rfl, hacc⟩
    · exact h.accepted k y l hl
    · exact ⟨(ha.accept hacc.symm).1, (ha.accept hacc.symm).2.1⟩
  · intro k l y m hk hl
    rcases reply_answer_eq_some hk with hk' | ⟨hki, hy, hm, hacc⟩ <;>
      rcases reply_answer_eq_some hl with hl' | ⟨hli, hy', hm', hacc'⟩
    · exact h.oneVote k l y m hk' hl'
    · subst hy' hm'
      exact absurd hk' ((ha.accept hacc'.symm).2.2 k)
    · subst hy hm
      exact absurd hl' ((ha.accept hacc.symm).2.2 l)
    · rw [hki, hli]
  · simp only [hproposed, Poll.voters, hsent]
    intro k y l n hl
    rcases reply_answer_eq_some hl with hl | ⟨rfl, rfl, rfl, hcol⟩
    · exact h.collision k y l n hl
    · exact ha.collision n hcol.symm

theorem Votes.receive (h : c.Votes) : (c.receive i x j).Votes := by
  have hmild : Mild (c.node j) ((c.node j).acceptId x).2 := by
    refine ⟨(h.fair j).acceptId x, fun y hy => hy.acceptId, ?_⟩
    rw [Node.acceptId_queue]
    exact fun d hd => ⟨d, hd, rfl, rfl, rfl⟩
  refine (h.of_node hmild).reply ⟨?_, ?_⟩
  · intro hacc
    have hg := Node.acceptId_grants (h.fair j) hacc
    refine ⟨by simpa using hg.spent_after, ?_, ?_⟩
    · exact Bool.eq_false_iff.mpr fun hp => hg.open_before (h.spent j x hp)
    · exact fun k hk => hg.open_before (h.accepted k x j hk).1
  · intro n hcol
    obtain ⟨d, hd, rfl, htp, rfl⟩ := Node.acceptId_collision hcol
    exact h.queued j d hd htp

/-- A request which cannot be sent shrinks the quorum. -/
theorem foldl_shrinkOne {α : Type} (sent : α → Prop) [DecidablePred sent] (l : List α) {q : Quorum}
    (hthreshold : q.acceptThreshold = (q.requests + 1) / 2)
    (hle : l.countP (fun j => ¬sent j) ≤ q.requests) :
    l.foldl (fun q j => if sent j then q else q.shrinkOne) q = { q with
      requests := q.requests - l.countP (fun j => ¬sent j)
      acceptThreshold := (q.requests - l.countP (fun j => ¬sent j) + 1) / 2 } := by
  induction l generalizing q with
  | nil => simp [← hthreshold]
  | cons j js ih =>
    rw [List.foldl_cons]
    rw [List.countP_cons] at hle ⊢
    by_cases hj : sent j
    · simpa [hj] using ih hthreshold (by simpa [hj] using hle)
    · simp only [hj, not_false_eq_true, decide_true, if_true] at hle
      have hshrink : q.shrinkOne.requests = q.requests - 1 := rfl
      rw [if_neg hj, ih (by simp only [Quorum.shrinkOne]; omega) (by omega)]
      simp [hj, Quorum.shrinkOne]
      omega

theorem sendRequests_eq (v : View N) (quorum : ℕ) (change : Change) :
    sendRequests i v (Quorum.new N quorum change) = { Quorum.new N quorum change with
      requests := ((Poll.sentBy i v).voters i).card - 1
      acceptThreshold := ((Poll.sentBy i v).voters i).card / 2 } := by
  have hvoters : (Poll.sentBy i v).voters i =
      Finset.univ.filter fun j => j = i ∨ v.sends j = true := by
    ext j
    by_cases hj : j = i <;> simp [Poll.voters, Poll.sentBy, Poll.start, hj]
  have hcount : (List.finRange N).countP (fun j => ¬(j = i ∨ v.sends j = true)) =
      Fintype.card (Fin N) - ((Poll.sentBy i v).voters i).card := by
    rw [hvoters, ← Finset.card_compl, Finset.compl_filter, List.countP_eq_length_filter,
      ← List.toFinset_card_of_nodup ((List.nodup_finRange N).filter _)]
    congr 1
    ext j
    simp
  have hpos := Finset.card_pos.mpr ⟨i, Poll.mem_voters_self (p := Poll.sentBy i v)⟩
  have hle := Finset.card_le_univ ((Poll.sentBy i v).voters i)
  rw [Fintype.card_fin] at hle hcount
  have hnew : (Quorum.new N quorum change).requests = N - 1 := rfl
  rw [sendRequests, foldl_shrinkOne _ _ (by simp [Quorum.new, Quorum.shrinkOne]; omega) (by omega),
    hcount, hnew]
  congr 1 <;> omega

theorem Votes.reqChangeId (h : c.Votes) {change : Change}
    (hne : ∀ d ∈ (c.node i).queue, d.uid ≠ change.uid) (hlt : change.uid < (c.node i).nextUid)
    (hnew : change.status = .new) (hmaster : change.tp = .master) (v : View N) :
    (c.reqChangeId i v change).2.2.Votes := by
  set x := (c.node i).nextChangeId with hx
  have hfair := h.fair i
  have hopen : ¬(c.node i).Spent x := fun hs => lt_irrefl _ hs.1
  have hunproposed : ∀ k y, (c.poll (k, y)).proposed = true → (k, y) ≠ (i, x) := by
    rintro k y hp heq
    obtain ⟨rfl, rfl⟩ := Prod.mk.inj heq
    exact hopen (h.spent _ _ hp)
  have hspent : ∀ k y, (c.node k).Spent y →
      ((c.reqChangeId i v change).2.2.node k).Spent y := by
    intro k y hk
    by_cases hki : k = i
    · subst hki
      simp only [Cluster.reqChangeId, update_self]
      exact hk.of_le (Nat.le_succ _) rfl
    · simpa only [Cluster.reqChangeId, update_of_ne hki] using hk
  have hanswer : ∀ k y l a, ((c.reqChangeId i v change).2.2.poll (k, y)).answer l = some a →
      (c.poll (k, y)).answer l = some a := by
    intro k y l a hl
    by_cases hp : (k, y) = (i, x)
    · simp [Cluster.reqChangeId, ← hx, hp, Poll.start, Poll.none] at hl
    · simpa only [Cluster.reqChangeId, ← hx, update_of_ne hp] using hl
  have hpoll : ∀ k y, (k, y) ≠ (i, x) →
      (c.reqChangeId i v change).2.2.poll (k, y) = c.poll (k, y) := by
    intro k y hp
    simp only [Cluster.reqChangeId, ← hx, update_of_ne hp]
  refine ⟨?_, ?_, ?_, ?_, ?_, ?_⟩
  · intro k
    by_cases hki : k = i
    · subst hki
      simp only [Cluster.reqChangeId, update_self]
      exact hfair.of_ordered (hfair.toOrdered.reqChangeId hne hlt hnew hmaster) (Nat.le_succ _) rfl
    · simpa only [Cluster.reqChangeId, update_of_ne hki] using h.fair k
  · intro k d hd htp
    by_cases hki : k = i
    · subst hki
      simp only [Cluster.reqChangeId, update_self] at hd
      rcases Node.mem_push.mp hd with rfl | hd
      · simp only [Cluster.reqChangeId, update_self, Poll.start]
        refine ⟨trivial, ?_⟩
        rw [sendRequests_eq]
        exact Nat.sub_add_cancel (Finset.card_pos.mpr ⟨k, Poll.mem_voters_self⟩)
      · rw [hpoll k d.id (by have := hfair.below d hd; simp; omega)]
        exact h.queued k d hd htp
    · simp only [Cluster.reqChangeId, update_of_ne hki] at hd
      rw [hpoll k d.id (by simp [hki])]
      exact h.queued k d hd htp
  · intro k y hp
    by_cases hk : (k, y) = (i, x)
    · obtain ⟨rfl, rfl⟩ := Prod.mk.inj hk
      simp only [Cluster.reqChangeId, update_self]
      exact (Node.reqChangeId_spent hfair change _).2
    · rw [hpoll k y hk] at hp
      exact hspent k y (h.spent k y hp)
  · intro k y l hl
    obtain ⟨hs, hp⟩ := h.accepted k y l (hanswer k y l _ hl)
    refine ⟨hspent l y hs, ?_⟩
    rw [hpoll l y, hp]
    intro heq
    obtain ⟨rfl, rfl⟩ := Prod.mk.inj heq
    exact hopen hs
  · intro k l y m hk hl
    exact h.oneVote k l y m (hanswer k y m _ hk) (hanswer l y m _ hl)
  · intro k y l n hl
    have hcol := h.collision k y l n (hanswer k y l _ hl)
    rw [hpoll l y (hunproposed l y hcol.1)]
    exact hcol

end Cluster
end ThingsDB.Changes
