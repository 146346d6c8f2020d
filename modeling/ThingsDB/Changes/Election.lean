import ThingsDB.Changes.Voters

/-!
# Agreement on change ids

The invariant of a cluster is kept by every event. It gives the agreement on
change ids: of two nodes which send their requests for the same id to the same
nodes, and which lose no answer, at most one wins.
-/

namespace ThingsDB.Changes

open Function

variable {N : ℕ} {ids : Fin N → ℕ} {i j : Fin N} {x : ℕ}
variable {nodes : Fin N → Node} {k : Fin N}

namespace Cluster

variable {c : Cluster N} {q : Quorum}

structure Inv (ids : Fin N → ℕ) (c : Cluster N) : Prop where
  votes : c.Votes
  sound : ∀ i x, (c.poll (i, x)).Sound ids i (c.node i).nextUid

/-- The cluster when `i` is about to call `ti_quorum_go` on the quorum `q` for `x`. -/
structure Going (ids : Fin N → ℕ) (c : Cluster N) (i : Fin N) (x : ℕ) (q : Quorum) : Prop where
  votes : c.Votes
  sound : ∀ k y, (k, y) ≠ (i, x) → (c.poll (k, y)).Sound ids k (c.node k).nextUid
  base : (c.poll (i, x)).Base ids i
  proposed : (c.poll (i, x)).proposed = true
  ready : (c.poll (i, x)).Ready ids i (c.node i).nextUid q

theorem onReqChangeId_mild {s : Node} (h : s.Fair) (change : Change) (b : Bool) :
    Mild s (onReqChangeId s change b) := by
  cases b with
  | true =>
    refine ⟨h.of_ordered (h.toOrdered.setReady change.uid) le_rfl rfl, fun x hx => hx, ?_⟩
    intro d hd
    obtain ⟨e, he, rfl⟩ := List.mem_map.mp hd
    refine ⟨e, he, ?_⟩
    split_ifs <;> exact ⟨rfl, rfl, rfl⟩
  | false =>
    refine ⟨h.of_ordered (h.toOrdered.rmval change.uid) le_rfl rfl, fun x hx => hx, ?_⟩
    exact fun d hd => ⟨d, List.mem_of_mem_eraseP hd, rfl, rfl, rfl⟩

theorem onReqChangeId_nextUid (s : Node) (change : Change) (b : Bool) :
    (onReqChangeId s change b).nextUid = s.nextUid := by
  cases b <;> rfl

theorem go_nextUid (c : Cluster N) (i : Fin N) (x : ℕ) (q : Quorum) (k : Fin N) :
    ((c.go i x q).node k).nextUid = (c.node k).nextUid := by
  unfold go
  cases q.go.1 with
  | none => rfl
  | some b =>
    by_cases hk : k = i
    · subst hk
      simp only [update_self, onReqChangeId_nextUid]
    · simp only [update_of_ne hk]

theorem go_votes (h : c.Votes) (i : Fin N) (x : ℕ) (q : Quorum) : (c.go i x q).Votes := by
  have hnode : Votes { c with node := (c.go i x q).node } := by
    unfold go
    dsimp only
    split
    · exact h.of_node (onReqChangeId_mild (h.fair i) _ _)
    · exact h
  have hfield : ∀ {β : Type} (f : Poll N → β),
      f ((c.poll (i, x)).go q) = f (c.poll (i, x)) →
        ∀ p, f ((c.go i x q).poll p) = f (c.poll p) := by
    intro β f hf p
    by_cases hp : p = (i, x)
    · subst hp
      simpa only [go, update_self] using hf
    · simp only [go, update_of_ne hp]
  exact hnode.of_poll (hfield Poll.proposed rfl) (hfield Poll.sent rfl) (hfield Poll.answer rfl)

theorem Going.go (h : c.Going ids i x q) : (c.go i x q).Inv ids := by
  refine ⟨go_votes h.votes i x q, ?_⟩
  intro k y
  rw [go_nextUid]
  by_cases hp : (k, y) = (i, x)
  · obtain ⟨rfl, rfl⟩ := Prod.mk.inj hp
    simp only [Cluster.go, update_self]
    exact h.base.go h.proposed h.ready
  · simp only [Cluster.go, update_of_ne hp]
    exact h.sound k y hp

/-- A change which the node may propose: it is new and not queued. -/
structure Proposable (c : Cluster N) (i : Fin N) (change : Change) : Prop where
  unqueued : ∀ d ∈ (c.node i).queue, d.uid ≠ change.uid
  allocated : change.uid < (c.node i).nextUid
  new : change.status = .new
  master : change.tp = .master

/-- A change which has lost its quorum can be proposed again. -/
theorem Going.proposable (h : c.Going ids i x q) (hlost : q.go.1 = some false) :
    (c.go i x q).Proposable i q.change := by
  obtain ⟨hnew, hmaster, hlt⟩ := h.ready.change
  refine ⟨?_, by rwa [go_nextUid], hnew, hmaster⟩
  intro d hd
  simp only [Cluster.go, hlost, update_self, onReqChangeId, Bool.false_eq_true, if_false] at hd
  exact ((Node.mem_rmval (h.votes.fair i).toOrdered).mp hd).2

theorem View.quorum_lt (v : View N) (hN : 0 < N) : v.quorum < N := by
  unfold View.quorum
  split_ifs
  · exact hN
  · exact Nat.div_lt_self hN (by decide)

theorem Inv.reqChangeId (hN : 2 ≤ N) (h : c.Inv ids) {change : Change}
    (hc : c.Proposable i change) (v : View N) :
    (c.reqChangeId i v change).2.2.Going ids i (c.reqChangeId i v change).1
      (c.reqChangeId i v change).2.1 := by
  have hvotes := h.votes.reqChangeId hc.unqueued hc.allocated hc.new hc.master v
  have huid : ∀ k, ((c.reqChangeId i v change).2.2.node k).nextUid = (c.node k).nextUid := by
    intro k
    by_cases hk : k = i
    · subst hk
      simp only [Cluster.reqChangeId, update_self]
      rfl
    · simp only [Cluster.reqChangeId, update_of_ne hk]
  have hself : i ∈ (Poll.sentBy i v).voters i := Poll.mem_voters_self
  refine ⟨hvotes, ?_, ?_, ?_, ?_⟩
  · intro k y hp
    rw [huid]
    simp only [Cluster.reqChangeId] at hp ⊢
    rw [update_of_ne hp]
    exact h.sound k y
  · simp only [Cluster.reqChangeId, update_self]
    exact Poll.start_base (by simp)
  · simp only [Cluster.reqChangeId, update_self]
    rfl
  · rw [huid]
    simp only [Cluster.reqChangeId, update_self, sendRequests_eq]
    refine ⟨⟨hc.new, hc.master, hc.allocated⟩, ⟨fun _ => rfl, fun _ => rfl⟩, ?_, fun _ => ?_,
      fun _ _ => Nat.zero_le _⟩
    · exact (Nat.sub_add_cancel (Finset.card_pos.mpr ⟨i, hself⟩)).le
    · exact (Quorum.Tally.new (View.quorum_lt v (by omega)) hself change).congr _ _

theorem Going.settle (hN : 2 ≤ N) (views : List (View N)) (h : c.Going ids i x q) :
    (settle i views x q c).Inv ids := by
  induction views generalizing x q c with
  | nil => exact h.go
  | cons v vs ih =>
    unfold Cluster.settle
    split_ifs with hlost
    · exact ih (h.go.reqChangeId hN (h.proposable hlost.1) v)
    · exact h.go

theorem Inv.propose (hN : 2 ≤ N) (h : c.Inv ids) (i : Fin N) (time : ℚ)
    (views : List (View N)) : (c.propose i time views).Inv ids := by
  cases views with
  | nil => exact h
  | cons v vs =>
    simp only [Cluster.propose]
    split_ifs
    · have hfair := h.votes.fair i
      have hmild : Mild (c.node i) ((c.node i).create .master time).2 :=
        ⟨hfair.of_ordered (hfair.raise (Nat.le_succ _) le_rfl hfair.committed) le_rfl rfl,
          fun x hx => hx, fun d hd => ⟨d, hd, rfl, rfl, rfl⟩⟩
      have hcreate : Inv ids { c with
          node := update c.node i ((c.node i).create .master time).2 } := by
        refine ⟨h.votes.of_node hmild, fun k y => (h.sound k y).mono ?_⟩
        by_cases hk : k = i
        · subst hk
          simp only [update_self]
          exact Nat.le_succ _
        · simp only [update_of_ne hk]
          exact le_rfl
      refine (hcreate.reqChangeId hN ⟨?_, ?_, rfl, rfl⟩ v).settle hN vs
      · simp only [update_self]
        exact fun d hd => (hfair.allocated d hd).ne
      · simp only [update_self]
        exact Nat.lt_succ_self _
    · exact h

theorem Inv.receive (h : c.Inv ids) (hsent : (c.poll (i, x)).sent j)
    (hnone : (c.poll (i, x)).answer j = none) : (c.receive i x j).Inv ids := by
  refine ⟨h.votes.receive, fun k y => ?_⟩
  have huid : ((c.receive i x j).node k).nextUid = (c.node k).nextUid := by
    by_cases hk : k = j
    · subst hk
      simp only [Cluster.receive, update_self, Node.acceptId_nextUid]
    · simp only [Cluster.receive, update_of_ne hk]
  rw [huid]
  by_cases hp : (k, y) = (i, x)
  · obtain ⟨rfl, rfl⟩ := Prod.mk.inj hp
    simp only [Cluster.receive, update_self]
    exact (h.sound k y).reply hnone hsent _
  · simp only [Cluster.receive, update_of_ne hp]
    exact h.sound k y

/-- The callback of a request: the quorum is counted, and the rest is `settle`. -/
theorem Inv.hear (h : c.Inv ids) {a : Option Answer}
    (hq : (c.poll (i, x)).quorum = some q)
    (ha : ∀ b, a = some b → (c.poll (i, x)).answer j = some b)
    (hready : ((c.poll (i, x)).hear j a).Ready ids i (c.node i).nextUid
      (q.reqCb (ids i) (ids j) a)) :
    Going ids { c with poll := update c.poll (i, x) ((c.poll (i, x)).hear j a) } i x
      (q.reqCb (ids i) (ids j) a) := by
  have hproposed : (c.poll (i, x)).proposed = true := by
    by_contra hidle
    rw [(h.sound i x).idle (by simpa using hidle)] at hq
    simp [Poll.none] at hq
  have hfield : ∀ {β : Type} (f : Poll N → β),
      f ((c.poll (i, x)).hear j a) = f (c.poll (i, x)) →
        ∀ p, f (update c.poll (i, x) ((c.poll (i, x)).hear j a) p) = f (c.poll p) := by
    intro β f hf p
    by_cases hp : p = (i, x)
    · subst hp
      simpa only [update_self] using hf
    · simp only [update_of_ne hp]
  refine ⟨h.votes.of_poll (hfield Poll.proposed rfl) (hfield Poll.sent rfl)
    (hfield Poll.answer rfl), ?_, ?_, ?_, ?_⟩
  · intro k y hp
    simp only [update_of_ne hp]
    exact h.sound k y
  · simp only [update_self]
    exact (h.sound i x).toBase.hear ha
  · simp only [update_self]
    exact hproposed
  · simpa only [update_self] using hready

theorem Inv.step (hN : 2 ≤ N) (c : Cluster N) (e : Event N) (c' : Cluster N) (h : c.Inv ids)
    (hstep : c.step ids e = some c') : c'.Inv ids := by
  cases e with
  | propose i time views =>
    obtain rfl := Option.some.inj hstep
    exact h.propose hN i time views
  | receive i x j =>
    simp only [Cluster.step] at hstep
    split_ifs at hstep with hcan
    obtain rfl := Option.some.inj hstep
    exact h.receive hcan.1 hcan.2
  | deliver i x j views =>
    simp only [Cluster.step] at hstep
    split at hstep
    next q a hq hheard hanswer =>
      obtain rfl := Option.some.inj hstep
      have hs := h.sound i x
      have hji : j ∈ ((c.poll (i, x)).voters i).erase i := by
        have hsent := hs.answered j (by simp [hanswer])
        refine Poll.mem_erase_voters.mpr ⟨?_, hsent⟩
        rintro rfl
        simp [hs.self] at hsent
      refine (h.hear hq ?_ ((hs.live q hq).deliver hji hheard a)).settle hN views
      rintro b hb
      rw [hanswer, hb]
    next => simp at hstep
  | lose i x j views =>
    simp only [Cluster.step] at hstep
    split at hstep
    next q hq hheard hsent =>
      obtain rfl := Option.some.inj hstep
      have hs := h.sound i x
      have hji : j ∈ ((c.poll (i, x)).voters i).erase i := by
        refine Poll.mem_erase_voters.mpr ⟨?_, hsent⟩
        rintro rfl
        simp [hs.self] at hsent
      exact (h.hear hq (by simp) ((hs.live q hq).lose hji)).settle hN views
    next => simp at hstep

theorem Inv.proposed_of_called (h : c.Inv ids) {r : Bool × Quorum}
    (hcalled : (c.poll (i, x)).called = some r) : (c.poll (i, x)).proposed := by
  by_contra hidle
  rw [(h.sound i x).idle (by simpa using hidle)] at hcalled
  simp [Poll.none] at hcalled

theorem Inv.answer_self (h : c.Inv ids) (i : Fin N) (x : ℕ) : (c.poll (i, x)).answer i = none := by
  by_contra hne
  have hsent := (h.sound i x).answered i hne
  simp [(h.sound i x).self] at hsent

/-- Two proposers of the same id exclude each other's voters. -/
theorem Inv.excludes (h : c.Inv ids) (hik : i ≠ k) (hk : (c.poll (k, x)).proposed)
    (hvoters : (c.poll (i, x)).voters i = (c.poll (k, x)).voters k) :
    Excludes k ((c.poll (k, x)).voters k) (c.poll (i, x)).answer (c.poll (k, x)).answer where
  mem := Poll.mem_voters_self
  outside := by
    intro j hj
    by_contra hne
    rw [← hvoters] at hj
    simp [Poll.voters, (h.sound i x).answered j hne] at hj
  own := by
    intro haccept
    have := (h.votes.accepted i x k haccept).2
    simp [hk] at this
  vote := by
    intro j hj
    rcases hG : (c.poll (k, x)).answer j with - | (- | - | n)
    · exact Or.inl rfl
    · exact absurd (h.votes.oneVote i k x j hj hG) hik
    · exact Or.inr rfl
    · have hfree := (h.votes.accepted i x j hj).2
      have hbusy := (h.votes.collision k x j n hG).1
      simp [hfree] at hbusy
  number := fun n hn => (h.votes.collision i x k n hn).2

theorem Inv.not_both_true (h : c.Inv ids) (hids : Injective ids) {q r : Quorum}
    (hq : (c.poll (i, x)).called = some (true, q)) (hr : (c.poll (k, x)).called = some (true, r))
    (hqfull : q.requests + 1 = ((c.poll (i, x)).voters i).card)
    (hrfull : r.requests + 1 = ((c.poll (k, x)).voters k).card)
    (hvoters : (c.poll (i, x)).voters i = (c.poll (k, x)).voters k) : i = k := by
  by_contra hik
  have hi := (h.sound i x).decided true q hq hqfull
  have hk := (h.sound k x).decided true r hr hrfull
  have hleft := h.excludes hik (h.proposed_of_called hr) hvoters
  have hright := h.excludes (Ne.symm hik) (h.proposed_of_called hq) hvoters.symm
  rw [hvoters] at hi hright
  have hiself := h.answer_self i x
  have hkself := h.answer_self k x
  rcases lt_or_gt_of_ne fun heq => hik (hids heq) with hlt | hlt
  · exact hi.not_both_true hk hleft hright hiself hkself hlt
  · exact hk.not_both_true hi hright hleft hkself hiself hlt

def boot (nodes : Fin N → Node) : Cluster N := ⟨nodes, fun _ => Poll.none⟩

theorem boot_inv (h : ∀ i, (nodes i).Initial) : (boot nodes).Inv ids := by
  refine ⟨⟨fun i => (h i).fair, ?_, ?_, ?_, ?_, ?_⟩, fun i x => Poll.none_sound⟩
  · intro i d hd
    simp [boot, (h i).queue] at hd
  · simp [boot, Poll.none]
  · simp [boot, Poll.none]
  · simp [boot, Poll.none]
  · simp [boot, Poll.none]

theorem run_inv (hN : 2 ≤ N) (hstart : ∀ i, (nodes i).Initial) {events : List (Event N)}
    {c : Cluster N} (hrun : Transition.run (step ids) (boot nodes) events = some c) : c.Inv ids :=
  Transition.run_invariant (Inv.step hN) (boot_inv hstart) hrun

theorem settle_of_ne (i : Fin N) (vs : List (View N)) (x : ℕ) (c : Cluster N)
    (h : q.go.1 ≠ some false) : settle i vs x q c = c.go i x q := by
  cases vs with
  | nil => rfl
  | cons v vs => simp [settle, h]

theorem go_won (c : Cluster N) (i : Fin N) (x : ℕ) (h : q.go.1 = some true) :
    ((c.go i x q).poll (i, x)).won := by
  simp [go, Poll.go, Poll.won, h]

/-- In a cluster of two nodes, a node which cannot see the other one wins at once. -/
theorem propose_alone (c : Cluster 2) {i : Fin 2} (time : ℚ) {v : View 2} (vs : List (View 2))
    (hup : v.up i) (hdown : ∃ j, v.up j = false) :
    ((c.propose i time (v :: vs)).poll (i, (c.node i).nextChangeId)).won := by
  have hquorum : v.quorum = 0 := if_pos ⟨rfl, hdown⟩
  have hhas : v.hasQuorum = true := by
    have hpos : 0 < (Finset.univ.filter fun j => v.up j = true).card :=
      Finset.card_pos.mpr ⟨i, by simp [hup]⟩
    simpa [View.hasQuorum, hquorum] using hpos
  have hshrunk : ∀ q : Quorum, sendRequests i v q = q.shrinkOne := by
    intro q
    obtain ⟨j, hj⟩ := hdown
    have hsend : v.sends j = false := by simp [View.sends, hj]
    have hne : j ≠ i := by
      rintro rfl
      simp [hup] at hj
    fin_cases i <;> fin_cases j <;> simp_all [sendRequests, List.finRange_succ]
  simp only [propose, hhas, if_true, reqChangeId, hshrunk, hquorum, update_self]
  rw [settle_of_ne _ _ _ _ (by simp [Quorum.go, Quorum.early, Quorum.new, Quorum.shrinkOne])]
  refine go_won _ i _ ?_
  simp [Quorum.go, Quorum.early, Quorum.new, Quorum.shrinkOne, Quorum.answers]

/-- In every run, two different nodes win the same change id only if one of them had lost an
answer before it was decided, or if their requests were not for the same nodes. In a cluster of
two nodes this is on purpose: a node which cannot see the other one goes on alone. -/
theorem two_winners_shrunk {N : ℕ} (hN : 2 ≤ N) {ids : Fin N → ℕ}
    (hids : Function.Injective ids) {nodes : Fin N → Node} (hstart : ∀ i, (nodes i).Initial)
    (events : List (Event N)) {c : Cluster N}
    (hrun : Transition.run (step ids) (boot nodes) events = some c) :
    (∀ i k x q r, i ≠ k → (c.poll (i, x)).called = some (true, q) →
      (c.poll (k, x)).called = some (true, r) →
        q.requests + 1 < ((c.poll (i, x)).voters i).card ∨
        r.requests + 1 < ((c.poll (k, x)).voters k).card ∨
        (c.poll (i, x)).voters i ≠ (c.poll (k, x)).voters k) ∧
    ∀ (c : Cluster 2) (i : Fin 2) (time : ℚ) (v : View 2) (vs : List (View 2)),
      v.up i = true → (∃ j, v.up j = false) →
        ((c.propose i time (v :: vs)).poll (i, (c.node i).nextChangeId)).won = true := by
  have h := run_inv hN hstart hrun
  refine ⟨?_, fun c i time v vs => propose_alone c time vs⟩
  intro i k x q r hik hq hr
  by_contra hfull
  simp only [not_or, not_lt, ne_eq, not_not] at hfull
  exact hik (h.not_both_true hids hq hr (((h.sound i x).requests true q hq).antisymm hfull.1)
    (((h.sound k x).requests true r hr).antisymm hfull.2.1) hfull.2.2)

/-- Three nodes, the first two of which propose the same id. The first one hears a
collision and then loses the answer of the third one, which has accepted the
request of the second one. -/
def lostAnswer : List (Event 3) :=
  [.propose 0 0 [View.calm], .propose 1 0 [View.calm], .receive 0 1 1, .receive 1 1 2,
    .deliver 0 1 1 [View.calm], .deliver 1 1 2 [View.calm], .receive 0 1 2,
    .lose 0 1 2 [View.calm]]

theorem lost_answer_both_win : ∃ c,
    Transition.run (step Fin.val) (boot fun _ => Node.boot 0) lostAnswer = some c ∧
    (c.poll (0, 1)).won = true ∧ (c.poll (1, 1)).won = true :=
  ⟨_, rfl, by decide, by decide⟩

theorem lost_answer_shrunk : ∃ c,
    Transition.run (step Fin.val) (boot fun _ => Node.boot 0) lostAnswer = some c ∧
    ∀ q r, (c.poll (0, 1)).called = some (true, q) → (c.poll (1, 1)).called = some (true, r) →
      q.requests + 1 < ((c.poll (0, 1)).voters 0).card ∨
      r.requests + 1 < ((c.poll (1, 1)).voters 1).card ∨
      (c.poll (0, 1)).voters 0 ≠ (c.poll (1, 1)).voters 1 :=
  ⟨_, rfl, fun q r => (two_winners_shrunk (by decide) Fin.val_injective
    (fun _ => Node.boot_initial 0) lostAnswer rfl).1 0 1 1 q r (by decide)⟩

end Cluster
end ThingsDB.Changes
