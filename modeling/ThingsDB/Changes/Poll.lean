import ThingsDB.Changes.Cluster

/-!
# One poll

The invariant of a poll relates the counters of its quorum to what the proposer
has heard, and keeps for a decided poll why it was decided. It is stated for a
quorum which has lost no answer; any other quorum is only bounded.
-/

namespace ThingsDB.Changes

open Function

variable {N : ℕ} {ids : Fin N → ℕ} {i j : Fin N} {bound : ℕ} {p : Poll N} {q : Quorum}

namespace Poll

theorem mem_voters_self : i ∈ p.voters i := by
  simp [voters]

theorem mem_erase_voters : j ∈ (p.voters i).erase i ↔ j ≠ i ∧ p.sent j := by
  simp +contextual [voters, and_or_left]

theorem voters_eq_univ (h : ∀ j ≠ i, p.sent j) : p.voters i = Finset.univ := by
  ext j
  simpa [voters, or_iff_not_imp_left] using h j

/-- What the proposer has heard, without the answers which got lost. -/
def ballot (p : Poll N) (j : Fin N) : Option Answer := (p.heard j).join

/-- A quorum of the poll `p` right before `ti_quorum_go`. -/
structure Ready (ids : Fin N → ℕ) (i : Fin N) (bound : ℕ) (p : Poll N) (q : Quorum) :
    Prop where
  change : q.change.status = .new ∧ q.change.tp = .master ∧ q.change.uid < bound
  cb : q.cb = true ↔ p.called = .none
  requests : q.requests + 1 ≤ (p.voters i).card
  full : q.requests + 1 = (p.voters i).card → q.Tally ids i (p.voters i) p.ballot
  bounded : q.requests + 1 = (p.voters i).card → q.cb = true → q.accepted ≤ q.acceptThreshold

/-- A quorum which `ti_quorum_go` has left. -/
structure Live (ids : Fin N → ℕ) (i : Fin N) (bound : ℕ) (p : Poll N) (q : Quorum) : Prop
    extends Ready ids i bound p q where
  waiting : q.requests + 1 = (p.voters i).card → q.cb = true →
    q.answers < q.requests ∧ q.accepted < q.acceptThreshold

/-- The part of the invariant of a poll which does not concern its quorum. -/
structure Base (ids : Fin N → ℕ) (i : Fin N) (p : Poll N) : Prop where
  self : p.sent i = false
  answered : ∀ j, p.answer j ≠ .none → p.sent j = true
  heardAnswer : ∀ j a, p.heard j = some (some a) → p.answer j = some a
  requests : ∀ b q, p.called = some (b, q) → q.requests + 1 ≤ (p.voters i).card
  decided : ∀ b q, p.called = some (b, q) → q.requests + 1 = (p.voters i).card →
    q.Decision ids i (p.voters i) p.answer b

/-- The invariant of a poll of the node `i`, where `bound` is the next `uid`. -/
structure Sound (ids : Fin N → ℕ) (i : Fin N) (bound : ℕ) (p : Poll N) : Prop
    extends Base ids i p where
  idle : p.proposed = false → p = Poll.none
  done : p.proposed = true → p.quorum = .none → p.called ≠ .none
  live : ∀ q, p.quorum = some q → p.Live ids i bound q

theorem none_sound : (Poll.none : Poll N).Sound ids i bound where
  self := rfl
  answered := by simp [Poll.none]
  heardAnswer := by simp [Poll.none]
  requests := by simp [Poll.none]
  decided := by simp [Poll.none]
  idle := fun _ => rfl
  done := by simp [Poll.none]
  live := by simp [Poll.none]

theorem Sound.mono (h : p.Sound ids i bound) {bound' : ℕ} (hle : bound ≤ bound') :
    p.Sound ids i bound' where
  toBase := h.toBase
  idle := h.idle
  done := h.done
  live := by
    intro q hq
    have hl := h.live q hq
    exact ⟨⟨⟨hl.change.1, hl.change.2.1, hl.change.2.2.trans_le hle⟩, hl.cb, hl.requests,
      hl.full, hl.bounded⟩, hl.waiting⟩

end Poll

theorem Quorum.Decision.of_le {R : Finset (Fin N)} {F F' : Fin N → Option Answer} {b : Bool}
    (h : q.Decision ids i R F b) (hle : ∀ j a, F j = some a → F' j = some a) :
    q.Decision ids i R F' b := by
  obtain ⟨H, hH, htally⟩ := h.tally
  exact ⟨h.cb, h.verdict, h.bounded, H, fun j a ha => hle j a (hH j a ha), htally⟩

namespace Poll

theorem Base.go (h : p.Base ids i) (hproposed : p.proposed)
    (hq : p.Ready ids i bound q) : (p.go q).Sound ids i bound where
  self := h.self
  answered := h.answered
  heardAnswer := h.heardAnswer
  requests := by
    intro b r hcalled
    cases hgo : q.go.1 with
    | none =>
      simp only [Poll.go, hgo] at hcalled
      exact h.requests b r hcalled
    | some b' =>
      simp only [Poll.go, hgo, Option.some.injEq, Prod.mk.injEq] at hcalled
      obtain ⟨-, rfl⟩ := hcalled
      exact hq.requests
  decided := by
    intro b r hcalled hfull
    cases hgo : q.go.1 with
    | none =>
      simp only [Poll.go, hgo] at hcalled
      exact h.decided b r hcalled hfull
    | some b' =>
      simp only [Poll.go, hgo, Option.some.injEq, Prod.mk.injEq] at hcalled
      obtain ⟨rfl, rfl⟩ := hcalled
      have hcb := Quorum.cb_of_go hgo
      refine ⟨hcb, hgo, hq.bounded hfull hcb, p.ballot, ?_, hq.full hfull⟩
      intro j a ha
      exact h.heardAnswer j a (Option.join_eq_some_iff.mp ha)
  idle := by
    intro hidle
    simp [Poll.go, hproposed] at hidle
  done := by
    intro _ hnone
    cases hgo : q.go.1 with
    | some b => simp [Poll.go, hgo]
    | none =>
      have hcb : ¬q.cb = true := fun hcb => Quorum.go_snd_eq_none hnone hcb hgo
      simpa [Poll.go, hgo] using mt hq.cb.mpr hcb
  live := by
    intro r hr
    obtain ⟨rfl, hwait⟩ := Quorum.go_snd hr
    refine ⟨⟨hq.change, ?_, hq.requests, fun hfull => (hq.full hfull).congr _ _, ?_⟩, ?_⟩
    · cases hgo : q.go.1 with
      | none => simpa [Poll.go, hgo] using hq.cb
      | some b => simp [Poll.go, hgo]
    · intro hfull hcb
      exact hq.bounded hfull (Bool.and_eq_true_iff.mp hcb).1
    · intro hfull hcb
      obtain ⟨hcb, hnone⟩ := Bool.and_eq_true_iff.mp hcb
      have hne := (Quorum.go_none hcb (Option.isNone_iff_eq_none.mp hnone)).2.1
      exact ⟨hwait, lt_of_le_of_ne (hq.bounded hfull hcb) hne⟩

theorem ballot_hear (p : Poll N) (j : Fin N) (a : Answer) :
    (p.hear j (some a)).ballot = update p.ballot j (some a) := by
  funext k
  by_cases hk : k = j
  · subst hk
    simp [ballot, hear]
  · simp [ballot, hear, hk]

theorem Base.hear (h : p.Base ids i) {a : Option Answer}
    (ha : ∀ b, a = some b → p.answer j = some b) : (p.hear j a).Base ids i where
  self := h.self
  answered := h.answered
  heardAnswer := by
    intro k b hk
    by_cases hkj : k = j
    · subst hkj
      simp only [Poll.hear, update_self, Option.some.injEq] at hk
      exact ha b hk
    · simp only [Poll.hear, update_of_ne hkj] at hk
      exact h.heardAnswer k b hk
  requests := h.requests
  decided := h.decided

/-- An answer keeps a quorum ready, since it is counted once. -/
theorem Live.deliver (h : p.Live ids i bound q) (hji : j ∈ (p.voters i).erase i)
    (hj : p.heard j = .none) (a : Answer) :
    (p.hear j (some a)).Ready ids i bound (q.reqCb (ids i) (ids j) (some a)) := by
  have hrequests : (q.reqCb (ids i) (ids j) (some a)).requests = q.requests := by
    cases a <;> rfl
  have hcb : (q.reqCb (ids i) (ids j) (some a)).cb = q.cb := by
    cases a <;> rfl
  have hchange : (q.reqCb (ids i) (ids j) (some a)).change = q.change := by
    cases a <;> rfl
  refine ⟨hchange ▸ h.change, hcb ▸ h.cb, hrequests ▸ h.requests, ?_, ?_⟩
  · rw [hrequests]
    intro hfull
    rw [ballot_hear]
    exact (h.full hfull).reqCb (by simp [ballot, hj]) hji a
  · rw [hrequests, hcb]
    intro hfull hset
    have hlt := (h.waiting hfull hset).2
    cases a with
    | accept => exact hlt
    | reject => exact hlt.le
    | collision n => exact hlt.le

/-- Without an answer the quorum is shrunk. -/
theorem Live.lose (h : p.Live ids i bound q) (hji : j ∈ (p.voters i).erase i) :
    (p.hear j .none).Ready ids i bound (q.reqCb (ids i) (ids j) .none) := by
  have hlt : q.requests - 1 + 1 < (p.voters i).card := by
    have hle := h.requests
    have hcard := Finset.card_pos.mpr ⟨j, hji⟩
    rw [Finset.card_erase_of_mem mem_voters_self] at hcard
    omega
  refine ⟨h.change, h.cb, hlt.le, fun hfull => ?_, fun hfull => ?_⟩
  · exact absurd hfull hlt.ne
  · exact absurd hfull hlt.ne

theorem reply_answer (p : Poll N) (j : Fin N) (a : Answer) :
    (p.reply j a).answer = update p.answer j (some a) := rfl

theorem Base.reply (h : p.Base ids i) (hj : p.answer j = .none) (hsent : p.sent j)
    (a : Answer) : (p.reply j a).Base ids i := by
  have hle : ∀ k b, p.answer k = some b → (p.reply j a).answer k = some b := by
    intro k b hk
    have hkj : k ≠ j := by
      rintro rfl
      simp [hj] at hk
    rw [reply_answer, update_of_ne hkj, hk]
  refine ⟨h.self, ?_, fun k b hk => hle k b (h.heardAnswer k b hk), h.requests, ?_⟩
  · intro k hk
    by_cases hkj : k = j
    · rwa [hkj]
    · rw [reply_answer, update_of_ne hkj] at hk
      exact h.answered k hk
  · intro b r hcalled hfull
    exact (h.decided b r hcalled hfull).of_le hle

theorem Sound.reply (h : p.Sound ids i bound) (hj : p.answer j = .none)
    (hsent : p.sent j) (a : Answer) : (p.reply j a).Sound ids i bound where
  toBase := h.toBase.reply hj hsent a
  idle := by
    intro hidle
    rw [h.idle hidle] at hsent
    simp [Poll.none] at hsent
  done := h.done
  live := by
    intro q hq
    have hl := h.live q hq
    exact ⟨⟨hl.change, hl.cb, hl.requests, hl.full, hl.bounded⟩, hl.waiting⟩

theorem start_base {sent : Fin N → Bool} (hself : sent i = false) : (start sent).Base ids i where
  self := hself
  answered := by simp [start, Poll.none]
  heardAnswer := by simp [start, Poll.none]
  requests := by simp [start, Poll.none]
  decided := by simp [start, Poll.none]

end Poll
end ThingsDB.Changes
