import ThingsDB.Changes.Election

/-!
# Clusters without lost answers

When every node sees all others and every request is answered, no quorum is ever
shrunk. Then at most one node wins a change id, and with exactly two proposers
the outcome is determined by the answers.
-/

namespace ThingsDB.Changes

open Function

variable {N : ℕ} {ids : Fin N → ℕ} {i j : Fin N} {x : ℕ}

/-- An event in a cluster where all nodes are reachable and no answer is lost. -/
inductive CalmEvent (N : ℕ) where
  | propose (i : Fin N) (time : ℚ)
  | receive (i : Fin N) (x : ℕ) (j : Fin N)
  | deliver (i : Fin N) (x : ℕ) (j : Fin N)

def CalmEvent.toEvent : CalmEvent N → Event N
  | .propose i time => .propose i time [View.calm]
  | .receive i x j => .receive i x j
  | .deliver i x j => .deliver i x j [View.calm]

/-- The answer of `j` has arrived. -/
def Poll.delivered (p : Poll N) (j : Fin N) : Prop := ∃ a, p.heard j = some (some a)

variable {k : Fin N} {p : Poll N}

namespace Cluster

variable {c : Cluster N} {q : Quorum}

/-- No quorum is shrunk. -/
structure Full (c : Cluster N) : Prop where
  quorum : ∀ p q, (c.poll p).quorum = some q → q.requests + 1 = N
  called : ∀ p b q, (c.poll p).called = some (b, q) → q.requests + 1 = N
  sent : ∀ i x, (c.poll (i, x)).proposed = true → ∀ j ≠ i, (c.poll (i, x)).sent j = true

theorem Full.go (h : c.Full) (hq : q.requests + 1 = N) (i : Fin N) (x : ℕ) : (c.go i x q).Full := by
  refine ⟨?_, ?_, ?_⟩
  · intro p r hr
    by_cases hp : p = (i, x)
    · subst hp
      simp only [Cluster.go, update_self] at hr
      rw [(Quorum.go_snd hr).1]
      exact hq
    · simp only [Cluster.go, update_of_ne hp] at hr
      exact h.quorum p r hr
  · intro p b r hr
    by_cases hp : p = (i, x)
    · subst hp
      simp only [Cluster.go, update_self, Poll.go] at hr
      split at hr
      · obtain ⟨-, rfl⟩ := Prod.mk.inj (Option.some.inj hr)
        exact hq
      · exact h.called (i, x) b r hr
    · simp only [Cluster.go, update_of_ne hp] at hr
      exact h.called p b r hr
  · intro k y hk
    by_cases hp : (k, y) = (i, x)
    · obtain ⟨rfl, rfl⟩ := Prod.mk.inj hp
      simp only [Cluster.go, update_self] at hk ⊢
      exact h.sent k y hk
    · simp only [Cluster.go, update_of_ne hp] at hk ⊢
      exact h.sent k y hk

theorem Full.reqChangeId (h : c.Full) (i : Fin N) (change : Change) :
    (c.reqChangeId i View.calm change).2.2.Full ∧
      (c.reqChangeId i View.calm change).2.1.requests + 1 = N := by
  refine ⟨⟨?_, ?_, ?_⟩, ?_⟩
  · intro p r hr
    by_cases hp : p = (i, (c.node i).nextChangeId)
    · subst hp
      simp [Cluster.reqChangeId, Poll.start, Poll.none] at hr
    · simp only [Cluster.reqChangeId, update_of_ne hp] at hr
      exact h.quorum p r hr
  · intro p b r hr
    by_cases hp : p = (i, (c.node i).nextChangeId)
    · subst hp
      simp [Cluster.reqChangeId, Poll.start, Poll.none] at hr
    · simp only [Cluster.reqChangeId, update_of_ne hp] at hr
      exact h.called p b r hr
  · intro k y hk
    by_cases hp : (k, y) = (i, (c.node i).nextChangeId)
    · obtain ⟨rfl, rfl⟩ := Prod.mk.inj hp
      intro j hj
      simp [Cluster.reqChangeId, Poll.start, View.sends, View.calm, hj]
    · simp only [Cluster.reqChangeId, update_of_ne hp] at hk ⊢
      exact h.sent k y hk
  · have hvoters := Poll.voters_eq_univ (p := Poll.sentBy i View.calm) (i := i) (by
      intro j hj
      simp [Poll.sentBy, Poll.start, View.sends, View.calm, hj])
    simp only [Cluster.reqChangeId, sendRequests_eq, hvoters, Finset.card_fin]
    exact Nat.sub_add_cancel (Nat.zero_lt_of_lt i.isLt)

theorem Full.settle (h : c.Full) (hq : q.requests + 1 = N) (i : Fin N) (x : ℕ) :
    (settle i [View.calm] x q c).Full := by
  simp only [Cluster.settle]
  split_ifs
  · obtain ⟨hfull, hr⟩ := (h.go hq i x).reqChangeId i q.change
    exact hfull.go hr i _
  · exact h.go hq i x

theorem Full.of_poll (h : c.Full) (hquorum : p.quorum = (c.poll (i, x)).quorum)
    (hcalled : p.called = (c.poll (i, x)).called)
    (hproposed : p.proposed = (c.poll (i, x)).proposed) (hsent : p.sent = (c.poll (i, x)).sent)
    (node : Fin N → Node) : Full ⟨node, update c.poll (i, x) p⟩ := by
  have hfield : ∀ {β : Type} (f : Poll N → β), f p = f (c.poll (i, x)) →
      ∀ p', f (update c.poll (i, x) p p') = f (c.poll p') := by
    intro β f hf p'
    by_cases hp : p' = (i, x)
    · subst hp
      simpa only [update_self] using hf
    · simp only [update_of_ne hp]
  refine ⟨?_, ?_, ?_⟩
  · simp only [hfield Poll.quorum hquorum]
    exact h.quorum
  · simp only [hfield Poll.called hcalled]
    exact h.called
  · simp only [hfield Poll.proposed hproposed, hfield Poll.sent hsent]
    exact h.sent

theorem Full.step (c : Cluster N) (e : CalmEvent N) (c' : Cluster N) (h : c.Full)
    (hstep : c.step ids e.toEvent = some c') : c'.Full := by
  cases e with
  | propose i time =>
    obtain rfl := Option.some.inj hstep
    simp only [Cluster.propose]
    split_ifs
    · obtain ⟨hfull, hr⟩ := Full.reqChangeId
        (c := { c with node := update c.node i ((c.node i).create .master time).2 })
        ⟨h.quorum, h.called, h.sent⟩ i ((c.node i).create .master time).1
      exact hfull.go hr i _
    · exact h
  | receive i x j =>
    simp only [CalmEvent.toEvent, Cluster.step] at hstep
    split_ifs at hstep
    obtain rfl := Option.some.inj hstep
    exact h.of_poll (p := (c.poll (i, x)).reply j _) rfl rfl rfl rfl _
  | deliver i x j =>
    simp only [CalmEvent.toEvent, Cluster.step] at hstep
    split at hstep
    next q a hq hheard hanswer =>
      obtain rfl := Option.some.inj hstep
      have hfull := h.of_poll (p := (c.poll (i, x)).hear j (some a)) rfl rfl rfl rfl c.node
      refine hfull.settle ?_ i x
      have hreq := h.quorum _ q hq
      cases a <;> exact hreq
    next => simp at hstep

theorem run_full {nodes : Fin N → Node} {events : List (CalmEvent N)}
    (hrun : Transition.run (step ids) (boot nodes) (events.map CalmEvent.toEvent) = some c) :
    c.Full := by
  rw [Transition.run_map] at hrun
  refine Transition.run_invariant Full.step ⟨?_, ?_, ?_⟩ hrun
  · simp [boot, Poll.none]
  · simp [boot, Poll.none]
  · simp [boot, Poll.none]

/-- Nobody wins: everybody else is split evenly, and the proposer with the higher
node id has rejected the other one, as it had lost already. -/
def Stalemate (ids : Fin N → ℕ) (c : Cluster N) (x : ℕ) (i k : Fin N) : Prop :=
  Ballot.votes (c.poll (i, x)).answer Answer.isAccept =
      Ballot.votes (c.poll (k, x)).answer Answer.isAccept ∧
    (ids i < ids k ∧ (c.poll (i, x)).answer k = some .reject ∨
      ids k < ids i ∧ (c.poll (k, x)).answer i = some .reject)

/-- Exactly two nodes have proposed `x`, everybody else has accepted one of them,
and all answers are delivered. -/
structure TwoProposers (c : Cluster N) (x : ℕ) (i k : Fin N) : Prop where
  ne : i ≠ k
  proposed : ∀ j, (c.poll (j, x)).proposed = true ↔ j = i ∨ j = k
  cover : ∀ j, j ≠ i → j ≠ k →
    (c.poll (i, x)).answer j = some .accept ∨ (c.poll (k, x)).answer j = some .accept
  left : ∀ j ≠ i, (c.poll (i, x)).delivered j
  right : ∀ j ≠ k, (c.poll (k, x)).delivered j

theorem TwoProposers.symm (h : c.TwoProposers x i k) : c.TwoProposers x k i :=
  ⟨h.ne.symm, fun j => (h.proposed j).trans or_comm, fun j hk hi => (h.cover j hi hk).symm,
    h.right, h.left⟩

theorem Full.voters (h : c.Full) (hproposed : (c.poll (i, x)).proposed) :
    (c.poll (i, x)).voters i = Finset.univ :=
  Poll.voters_eq_univ (h.sent i x hproposed)

theorem Inv.duel (h : c.Inv ids) (hfull : c.Full) (htwo : c.TwoProposers x i k) :
    Duel i k (c.poll (i, x)).answer (c.poll (k, x)).answer := by
  have hi := (htwo.proposed i).mpr (Or.inl rfl)
  have hk := (htwo.proposed k).mpr (Or.inr rfl)
  have hleft := h.excludes htwo.ne hk ((hfull.voters hi).trans (hfull.voters hk).symm)
  have hright := h.excludes htwo.ne.symm hi ((hfull.voters hk).trans (hfull.voters hi).symm)
  rw [hfull.voters hk] at hleft
  rw [hfull.voters hi] at hright
  refine ⟨htwo.ne, hleft, hright, h.answer_self i x, h.answer_self k x, ?_, ?_, htwo.cover⟩
  · intro j hj
    obtain ⟨a, ha⟩ := htwo.left j (Finset.ne_of_mem_erase hj)
    simp [(h.sound i x).heardAnswer j a ha]
  · intro j hj
    obtain ⟨a, ha⟩ := htwo.right j (Finset.ne_of_mem_erase hj)
    simp [(h.sound k x).heardAnswer j a ha]

theorem Inv.called_of_delivered (h : c.Inv ids) (hfull : c.Full)
    (hproposed : (c.poll (i, x)).proposed) (hall : ∀ j ≠ i, (c.poll (i, x)).delivered j) :
    ∃ b q, (c.poll (i, x)).called = some (b, q) ∧
      q.Decision ids i Finset.univ (c.poll (i, x)).answer b := by
  have hs := h.sound i x
  have hvoters := hfull.voters hproposed
  have hcard : ((c.poll (i, x)).voters i).card = N := by rw [hvoters, Finset.card_fin]
  cases hcalled : (c.poll (i, x)).called with
  | some r =>
    refine ⟨r.1, r.2, rfl, hvoters ▸ hs.decided r.1 r.2 hcalled ?_⟩
    rw [hcard, hfull.called _ _ _ hcalled]
  | none =>
    obtain ⟨q, hq⟩ := Option.ne_none_iff_exists'.mp fun hnone => hs.done hproposed hnone hcalled
    have hl := hs.live q hq
    have hreq := (hfull.quorum _ q hq).trans hcard.symm
    have hwait := (hl.waiting hreq (hl.cb.mpr hcalled)).1
    have hle := (hl.full hreq).requests_le_answers fun j hj => by
      obtain ⟨a, ha⟩ := hall j (Finset.ne_of_mem_erase hj)
      simp [Poll.ballot, ha]
    omega

theorem won_iff {b : Bool} (h : p.called = some (b, q)) : p.won ↔ b := by
  simp [Poll.won, h]

theorem Inv.tie (h : c.Inv ids) (hfull : c.Full) (hids : Injective ids)
    (htwo : c.TwoProposers x i k)
    (heq : Ballot.votes (c.poll (i, x)).answer Answer.isAccept =
      Ballot.votes (c.poll (k, x)).answer Answer.isAccept) :
    (c.poll (i, x)).won ↔
      ids i < ids k ∧ ¬(c.poll (i, x)).answer k = some .reject := by
  have hduel := h.duel hfull htwo
  obtain ⟨b, q, hcalled, hd⟩ :=
    h.called_of_delivered hfull ((htwo.proposed i).mpr (Or.inl rfl)) htwo.left
  rw [won_iff hcalled, hd.of_tie hduel hids heq]
  rcases hduel.other with hrej | ⟨n, hn⟩
  · simp [hrej]
  · simp [hn]

theorem Inv.majority (h : c.Inv ids) (hfull : c.Full) (htwo : c.TwoProposers x i k)
    (hlt : Ballot.votes (c.poll (k, x)).answer Answer.isAccept <
      Ballot.votes (c.poll (i, x)).answer Answer.isAccept) : (c.poll (i, x)).won := by
  obtain ⟨b, q, hcalled, hd⟩ :=
    h.called_of_delivered hfull ((htwo.proposed i).mpr (Or.inl rfl)) htwo.left
  exact (won_iff hcalled).mpr (hd.of_majority (h.duel hfull htwo) hlt)

theorem Inv.eq_of_won (h : c.Inv ids) (hfull : c.Full) (hids : Injective ids)
    (hi : (c.poll (i, x)).won) (hk : (c.poll (k, x)).won) : i = k := by
  obtain ⟨⟨b, q⟩, hq, rfl⟩ : ∃ r, (c.poll (i, x)).called = some r ∧ r.1 = true := by
    simpa [Poll.won, Option.any_eq_true] using hi
  obtain ⟨⟨b, r⟩, hr, rfl⟩ : ∃ r, (c.poll (k, x)).called = some r ∧ r.1 = true := by
    simpa [Poll.won, Option.any_eq_true] using hk
  have hi := hfull.voters (h.proposed_of_called hq)
  have hk := hfull.voters (h.proposed_of_called hr)
  refine h.not_both_true hids hq hr ?_ ?_ (hi.trans hk.symm)
  · rw [hi, Finset.card_fin, hfull.called _ _ _ hq]
  · rw [hk, Finset.card_fin, hfull.called _ _ _ hr]

theorem Stalemate.symm (h : c.Stalemate ids x i k) : c.Stalemate ids x k i :=
  ⟨h.1.symm, h.2.symm⟩

/-- A tie between a proposer and one with a higher node id. -/
theorem Inv.tie_outcome (h : c.Inv ids) (hfull : c.Full) (hids : Injective ids)
    (htwo : c.TwoProposers x i k) (hlt : ids i < ids k)
    (heq : Ballot.votes (c.poll (i, x)).answer Answer.isAccept =
      Ballot.votes (c.poll (k, x)).answer Answer.isAccept) :
    ¬(c.poll (k, x)).won ∧
      ((c.poll (i, x)).won ↔ ¬c.Stalemate ids x i k) := by
  have hstale : c.Stalemate ids x i k ↔ (c.poll (i, x)).answer k = some .reject := by
    simp [Stalemate, heq, hlt, hlt.not_gt]
  refine ⟨fun hk => ?_, ?_⟩
  · exact absurd ((h.tie hfull hids htwo.symm heq.symm).mp hk).1 hlt.not_gt
  · rw [h.tie hfull hids htwo heq, hstale]
    exact and_iff_right hlt

/-- In every run without lost answers at most one node wins a change id. With
exactly two proposers, and all others accepting one of them, nobody wins in a
stalemate and exactly one of the two wins otherwise. -/
theorem one_winner_unless_stalemate {N : ℕ} (hN : 2 ≤ N) {ids : Fin N → ℕ}
    (hids : Function.Injective ids) {nodes : Fin N → Node} (hstart : ∀ i, (nodes i).Initial)
    (events : List (CalmEvent N)) {c : Cluster N}
    (hrun : Transition.run (step ids) (boot nodes) (events.map CalmEvent.toEvent) = some c)
    (x : ℕ) :
    (∀ i k, (c.poll (i, x)).won = true → (c.poll (k, x)).won = true → i = k) ∧
    ∀ i k, c.TwoProposers x i k →
      (c.Stalemate ids x i k → ¬(c.poll (i, x)).won = true ∧ ¬(c.poll (k, x)).won = true) ∧
      (¬c.Stalemate ids x i k →
        Xor ((c.poll (i, x)).won = true) ((c.poll (k, x)).won = true)) := by
  have h := run_inv hN hstart hrun
  have hfull : c.Full := run_full hrun
  have hone : ∀ i k, (c.poll (i, x)).won = true → (c.poll (k, x)).won = true → i = k :=
    fun i k => h.eq_of_won hfull hids
  refine ⟨hone, fun i k htwo => ?_⟩
  rcases lt_trichotomy (Ballot.votes (c.poll (i, x)).answer Answer.isAccept)
      (Ballot.votes (c.poll (k, x)).answer Answer.isAccept) with hlt | heq | hgt
  · have hk := h.majority hfull htwo.symm hlt
    refine ⟨fun hs => absurd hs.1 hlt.ne, fun _ => Or.inr ⟨hk, fun hi => ?_⟩⟩
    exact htwo.ne (hone i k hi hk)
  · rcases lt_or_gt_of_ne fun he => htwo.ne (hids he) with hlt | hlt
    · obtain ⟨hk, hi⟩ := h.tie_outcome hfull hids htwo hlt heq
      exact ⟨fun hs => ⟨fun hw => hi.mp hw hs, hk⟩, fun hs => Or.inl ⟨hi.mpr hs, hk⟩⟩
    · obtain ⟨hi, hk⟩ := h.tie_outcome hfull hids htwo.symm hlt heq.symm
      exact ⟨fun hs => ⟨hi, fun hw => hk.mp hw hs.symm⟩,
        fun hs => Or.inr ⟨hk.mpr fun hs' => hs hs'.symm, hi⟩⟩
  · have hi := h.majority hfull htwo hgt
    refine ⟨fun hs => absurd hs.1 hgt.ne', fun _ => Or.inl ⟨hi, fun hk => ?_⟩⟩
    exact htwo.ne (hone i k hi hk)

/-- Two nodes propose the same id. The one with the higher id gets a collision and
proposes another id before the request of the first one arrives. -/
def lateRequest : List (CalmEvent 2) :=
  [.propose 0 0, .propose 1 0, .receive 1 1 0, .deliver 1 1 0, .receive 0 1 1, .deliver 0 1 1]

theorem late_request_both_lose : ∃ c,
    Transition.run (step Fin.val) (boot fun _ => Node.boot 0)
      (lateRequest.map CalmEvent.toEvent) = some c ∧
    c.TwoProposers 1 0 1 ∧ ¬(c.poll (0, 1)).won = true ∧ ¬(c.poll (1, 1)).won = true := by
  refine ⟨_, rfl, ⟨by decide, by decide, by decide, ?_, ?_⟩, by decide, by decide⟩
  · intro j hj
    fin_cases j
    · exact absurd rfl hj
    · exact ⟨.reject, rfl⟩
  · intro j hj
    fin_cases j
    · exact ⟨.collision 1, rfl⟩
    · exact absurd rfl hj

def quickRequest : List (CalmEvent 2) :=
  [.propose 0 0, .propose 1 0, .receive 1 1 0, .receive 0 1 1, .deliver 1 1 0, .deliver 0 1 1]

theorem quick_request_one_winner : ∃ c,
    Transition.run (step Fin.val) (boot fun _ => Node.boot 0)
      (quickRequest.map CalmEvent.toEvent) = some c ∧
    Xor ((c.poll (0, 1)).won = true) ((c.poll (1, 1)).won = true) := by
  refine ⟨_, rfl, ?_⟩
  refine ((one_winner_unless_stalemate (by decide) Fin.val_injective
    (fun _ => Node.boot_initial 0) quickRequest rfl 1).2 0 1
    ⟨by decide, by decide, by decide, ?_, ?_⟩).2 ?_
  · intro j hj
    fin_cases j
    · exact absurd rfl hj
    · exact ⟨.collision 1, rfl⟩
  · intro j hj
    fin_cases j
    · exact ⟨.collision 1, rfl⟩
    · exact absurd rfl hj
  · rintro ⟨-, ⟨-, hrej⟩ | ⟨hlt, -⟩⟩
    · revert hrej
      decide
    · revert hlt
      decide

end Cluster
end ThingsDB.Changes
