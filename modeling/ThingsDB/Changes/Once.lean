import ThingsDB.Changes.Quorum
import ThingsDB.Lib.Transition

/-!
# One decision for each quorum

A quorum from `ti_quorum_new` to its last answer, with any number of requests which could
not be sent. The callback is called once, the quorum is destroyed with the last answer, and
without failures the order of the answers does not matter.
-/

namespace ThingsDB.Changes.Quorum

open Transition

/-- A quorum until it is destroyed, and the arguments of the callback. -/
structure Session where
  quorum : Option Quorum
  calls : List Bool

/-- A call of `ti_quorum_go`. -/
def Session.after (calls : List Bool) (q : Quorum) : Session := ⟨q.go.2, calls ++ q.go.1.toList⟩

/-- A cluster of `n` nodes with `fails` requests which are not sent. -/
def Session.start (n quorum fails : ℕ) (change : Change) : Session :=
  .after [] (shrinkOne^[fails] (new n quorum change))

/-- The answer of a node, or a failure. It is none when the quorum is destroyed already. -/
def Session.answer (self : ℕ) (s : Session) (x : ℕ × Option Answer) : Option Session :=
  s.quorum.map fun q => .after s.calls (q.reqCb self x.1 x.2)

/-- The counters fit their 8 bits. -/
def Fits (q : Quorum) : Prop :=
  -2 ^ 7 ≤ q.diffRequests ∧ q.diffRequests < 2 ^ 7 ∧ q.accepted < 2 ^ 8 ∧ q.rejected < 2 ^ 8 ∧
    q.collisions < 2 ^ 8 ∧ q.requests < 2 ^ 8 ∧ q.acceptThreshold < 2 ^ 8

/-- What holds of a quorum while requests are not answered. -/
structure Counted (n left : ℕ) (q : Quorum) : Prop where
  left : q.answers + left = q.requests
  threshold : q.acceptThreshold = (q.requests + 1) / 2
  requests : q.requests < n
  diff : |q.diffRequests| ≤ q.collisions

/-- The callback is set and was not called, or the other way round. -/
def Pending (q : Quorum) (calls : List Bool) : Prop :=
  q.cb = true ∧ calls = [] ∧ q.accepted < q.acceptThreshold ∨ q.cb = false ∧ ∃ b, calls = [b]

/-- As `Pending`, before the accepted answers are compared with the threshold. -/
def Undecided (q : Quorum) (calls : List Bool) : Prop :=
  q.cb = true ∧ calls = [] ∧ q.accepted ≤ q.acceptThreshold ∨ q.cb = false ∧ ∃ b, calls = [b]

/-- A session which waits for `left` more answers. -/
def Waiting (n left : ℕ) (s : Session) : Prop :=
  ∃ q, s.quorum = some q ∧ Counted n left q ∧ q.Pending s.calls

variable {n left : ℕ} {q : Quorum} {s : Session}

theorem Counted.fits (h : Counted n left q) (hn : n ≤ 64) : q.Fits := by
  obtain ⟨hleft, hthreshold, hrequests, hdiff⟩ := h
  unfold answers at hleft
  have := abs_le.mp hdiff
  unfold Fits
  omega

theorem Counted.shrinkOne (h : Counted n (left + 1) q) : Counted n left q.shrinkOne := by
  obtain ⟨hleft, hthreshold, hrequests, hdiff⟩ := h
  unfold answers at hleft
  refine ⟨?_, ?_, ?_, hdiff⟩
  all_goals
    simp only [Quorum.shrinkOne, answers]
    omega

theorem Counted.reqCb (h : Counted n (left + 1) q) (self other : ℕ) (a : Option Answer) :
    Counted n left (q.reqCb self other a) := by
  cases a with
  | none => exact h.shrinkOne
  | some a =>
    obtain ⟨hleft, hthreshold, hrequests, hdiff⟩ := h
    unfold answers at hleft
    cases a with
    | accept =>
      refine ⟨?_, hthreshold, hrequests, hdiff⟩
      simp only [Quorum.reqCb, answers]
      omega
    | reject =>
      refine ⟨?_, hthreshold, hrequests, hdiff⟩
      simp only [Quorum.reqCb, answers]
      omega
    | collision m =>
      refine ⟨?_, hthreshold, hrequests, ?_⟩
      · simp only [Quorum.reqCb, answers]
        omega
      · have := abs_le.mp hdiff
        simp only [Quorum.reqCb]
        rw [abs_le]
        split_ifs <;> push_cast <;> omega

variable {as : List (ℕ × Option Answer)} {calls : List Bool} {fails : ℕ} {t : Session}

/-- An answer moves the accepted answers or the threshold by one at most. -/
theorem Pending.reqCb (h : q.Pending calls) (hq : Counted n (left + 1) q)
    (self other : ℕ) (a : Option Answer) : (q.reqCb self other a).Undecided calls := by
  obtain ⟨hcb, hcalls, hlt⟩ | ⟨hcb, hcalls⟩ := h
  · refine .inl ⟨?_, hcalls, ?_⟩
    · rcases a with - | (- | - | m) <;> exact hcb
    · rcases a with - | (- | - | m)
      · have := hq.threshold
        simp only [Quorum.reqCb, Quorum.shrinkOne]
        omega
      · exact hlt
      · exact hlt.le
      · exact hlt.le
  · refine .inr ⟨?_, hcalls⟩
    rcases a with - | (- | - | m) <;> exact hcb

theorem Counted.answers_lt_iff (h : Counted n left q) : q.answers < q.requests ↔ 0 < left := by
  have := h.left
  omega

/-- A quorum with answers left is not destroyed. -/
theorem waiting_after (hq : Counted n left q) (h : q.Undecided calls)
    (hleft : 0 < left) : Waiting n left (.after calls q) := by
  have hwait := hq.answers_lt_iff.mpr hleft
  obtain ⟨hcb, rfl, hle⟩ | ⟨hcb, b, rfl⟩ := h
  · cases hgo : q.go.1 with
    | none =>
      obtain ⟨-, hne, hsnd⟩ := go_none hcb hgo
      refine ⟨q, hsnd, hq, .inl ⟨hcb, ?_, by omega⟩⟩
      simp [Session.after, hgo]
    | some b =>
      refine ⟨{ q with cb := false }, ?_, ⟨hq.left, hq.threshold, hq.requests, hq.diff⟩,
        .inr ⟨rfl, b, ?_⟩⟩
      · simp only [go, hcb, hwait, if_true] at hgo
        simp [Session.after, go, hcb, hwait, hgo]
      · simp [Session.after, hgo]
  · refine ⟨q, ?_, hq, .inr ⟨hcb, b, ?_⟩⟩
    · obtain ⟨d, a, r, c, m, k, w, t, cb, change⟩ := q
      obtain rfl : cb = false := hcb
      simp [Session.after, go, hwait]
    · simp [Session.after, go, hcb, hwait]

/-- With the last answer the quorum is destroyed, and the callback was called once. -/
theorem after_last (hq : Counted n 0 q) (h : q.Undecided calls) :
    (Session.after calls q).quorum = none ∧ ∃ b, (Session.after calls q).calls = [b] := by
  have hall : ¬q.answers < q.requests := by
    have := hq.left
    omega
  have hnone : q.go.2 = none := by simp [go, hall]
  refine ⟨hnone, ?_⟩
  obtain ⟨hcb, rfl, -⟩ | ⟨hcb, b, rfl⟩ := h
  · obtain ⟨b, hb⟩ := Option.ne_none_iff_exists'.mp (go_snd_eq_none hnone hcb)
    exact ⟨b, by simp [Session.after, hb]⟩
  · exact ⟨b, by simp [Session.after, go, hcb, hall]⟩

theorem counted_start (quorum : ℕ) (change : Change) (h : left + fails + 1 = n) :
    Counted n left (Quorum.shrinkOne^[fails] (new n quorum change)) ∧
      (Quorum.shrinkOne^[fails] (new n quorum change)).accepted = 0 ∧
      (Quorum.shrinkOne^[fails] (new n quorum change)).cb := by
  induction fails generalizing left with
  | zero =>
    refine ⟨⟨?_, ?_, ?_, ?_⟩, rfl, rfl⟩
    all_goals
      simp [new, Quorum.shrinkOne, answers]
    all_goals omega
  | succ fails ih =>
    have hmore : left + 1 + fails + 1 = n := by omega
    obtain ⟨hq, hacc, hcb⟩ := ih hmore
    rw [Function.iterate_succ_apply']
    exact ⟨hq.shrinkOne, hacc, hcb⟩

theorem undecided_start (quorum : ℕ) (change : Change) (h : left + fails + 1 = n) :
    (Quorum.shrinkOne^[fails] (new n quorum change)).Undecided [] := by
  obtain ⟨-, hacc, hcb⟩ := counted_start quorum change h
  exact .inl ⟨hcb, rfl, by omega⟩

theorem answer_of_waiting (h : Waiting n (left + 1) s) (self : ℕ) (x : ℕ × Option Answer) :
    ∃ q, s.answer self x = some (.after s.calls q) ∧ Counted n left q ∧ q.Undecided s.calls := by
  obtain ⟨q, hs, hq, hpending⟩ := h
  refine ⟨q.reqCb self x.1 x.2, ?_, hq.reqCb self x.1 x.2, hpending.reqCb hq self x.1 x.2⟩
  rw [Session.answer, hs]
  rfl

theorem run_waiting (self : ℕ) (as : List (ℕ × Option Answer)) (hleft : 0 < left)
    (hs : Waiting n (left + as.length) s) :
    ∃ t, run (Session.answer self) s as = some t ∧ Waiting n left t := by
  induction as generalizing s with
  | nil => exact ⟨s, rfl, hs⟩
  | cons x as ih =>
    have hs' : Waiting n (left + as.length + 1) s := hs
    obtain ⟨q, hanswer, hq, hundecided⟩ := answer_of_waiting hs' self x
    obtain ⟨t, ht, hwait⟩ := ih (waiting_after hq hundecided (by omega))
    exact ⟨t, run_cons_eq_some.mpr ⟨_, hanswer, ht⟩, hwait⟩

theorem run_last (self : ℕ) (has : as ≠ [])
    (hs : Waiting n as.length s) : ∃ t, run (Session.answer self) s as = some t ∧
      t.quorum = none ∧ ∃ b, t.calls = [b] := by
  induction as generalizing s with
  | nil => exact absurd rfl has
  | cons x as ih =>
    obtain ⟨q, hanswer, hq, hundecided⟩ := answer_of_waiting hs self x
    cases as with
    | nil =>
      obtain ⟨hnone, hcalls⟩ := after_last hq hundecided
      exact ⟨_, run_cons_eq_some.mpr ⟨_, hanswer, rfl⟩, hnone, hcalls⟩
    | cons y as =>
      obtain ⟨t, ht, hend⟩ := ih (by simp) (waiting_after hq hundecided (by simp))
      exact ⟨t, run_cons_eq_some.mpr ⟨_, hanswer, ht⟩, hend⟩

/-! ## The order of the answers -/

def counts (self : ℕ) (q : Quorum) (as : List (ℕ × Option Answer)) : Quorum :=
  as.foldl (fun q x => q.reqCb self x.1 x.2) q

def verdict (q : Quorum) : Bool :=
  if q.requests < q.quorum then false
  else if q.acceptThreshold ≤ q.accepted then true
  else if q.acceptThreshold < q.rejected + q.requests % 2 then false
  else q.final

theorem reqCb_comm (self : ℕ) (q : Quorum) (i j : ℕ) (a b : Answer) :
    (q.reqCb self i (some a)).reqCb self j (some b) =
      (q.reqCb self j (some b)).reqCb self i (some a) := by
  obtain ⟨d, acc, rej, c, m, k, w, t, cb, change⟩ := q
  cases a with
  | accept => cases b <;> rfl
  | reject => cases b <;> rfl
  | collision x =>
    cases b with
    | accept => rfl
    | reject => rfl
    | collision y =>
      simp only [reqCb, Quorum.mk.injEq, true_and, and_true]
      constructor
      · split_ifs <;> omega
      · split_ifs <;> rfl

theorem counts_perm (self : ℕ) (q : Quorum) {bs : List (ℕ × Option Answer)}
    (h : bs.Perm as) (hsome : ∀ x ∈ as, x.2 ≠ none) : counts self q bs = counts self q as := by
  refine h.foldl_eq' (fun x hx y hy z => ?_) q
  obtain ⟨a, ha⟩ := Option.ne_none_iff_exists'.mp (hsome x (h.subset hx))
  obtain ⟨b, hb⟩ := Option.ne_none_iff_exists'.mp (hsome y (h.subset hy))
  rw [ha, hb]
  exact reqCb_comm self z x.1 y.1 a b

/-- Answers which are not failures only add to the counters. -/
theorem counts_mono (self : ℕ) (hsome : ∀ x ∈ as, x.2 ≠ none)
    (q : Quorum) : (counts self q as).requests = q.requests ∧
      (counts self q as).quorum = q.quorum ∧
      (counts self q as).acceptThreshold = q.acceptThreshold ∧
      q.accepted ≤ (counts self q as).accepted ∧ q.rejected ≤ (counts self q as).rejected := by
  induction as generalizing q with
  | nil => exact ⟨rfl, rfl, rfl, le_rfl, le_rfl⟩
  | cons x as ih =>
    obtain ⟨a, ha⟩ := Option.ne_none_iff_exists'.mp (hsome x List.mem_cons_self)
    obtain ⟨h1, h2, h3, h4, h5⟩ := ih (fun y hy => hsome y (List.mem_cons_of_mem x hy))
      (q.reqCb self x.1 x.2)
    rw [ha] at h1 h2 h3 h4 h5
    have hcons : counts self q (x :: as) = counts self (q.reqCb self x.1 (some a)) as := by
      rw [← ha]
      rfl
    rw [hcons]
    refine ⟨h1.trans ?_, h2.trans ?_, h3.trans ?_, le_trans ?_ h4, le_trans ?_ h5⟩
    all_goals cases a <;> simp [reqCb]

theorem counted_counts (self : ℕ) (hq : Counted n as.length q) :
    Counted n 0 (counts self q as) := by
  induction as generalizing q with
  | nil => exact hq
  | cons x as ih => exact ih (hq.reqCb self x.1 x.2)

/-- An early decision is the one of all answers. -/
theorem verdict_of_early (self : ℕ) {b : Bool} (hsome : ∀ x ∈ as, x.2 ≠ none)
    (hq : Counted n as.length q) (h : q.early = some b) : verdict (counts self q as) = b := by
  obtain ⟨hreq, hquorum, hthreshold, hacc, hrej⟩ := counts_mono self hsome q
  have hall := (counted_counts self hq).left
  have ht := hq.threshold
  unfold answers at hall
  unfold early at h
  unfold verdict
  split_ifs at h with h1 h2 h3
  · obtain rfl := Option.some.inj h
    rw [if_pos (by omega)]
  · obtain rfl := Option.some.inj h
    rw [if_neg (by omega), if_pos (by omega)]
  · obtain rfl := Option.some.inj h
    rw [if_neg (by omega), if_neg (by omega), if_pos (by omega)]

theorem cb_reqCb (q : Quorum) (self other : ℕ) (a : Option Answer) :
    (q.reqCb self other a).cb = q.cb := by
  rcases a with - | (- | - | m) <;> rfl

/-- After the callback was called, answers are only counted. -/
theorem calls_of_decided (self : ℕ) (hs : ∀ q, s.quorum = some q → q.cb = false)
    (h : run (Session.answer self) s as = some t) : t.calls = s.calls := by
  have hend : t.calls = s.calls ∧ ∀ q, t.quorum = some q → q.cb = false := by
    refine run_invariant (P := fun t => t.calls = s.calls ∧ ∀ q, t.quorum = some q → q.cb = false)
      ?_ ⟨rfl, hs⟩ h
    rintro u x t ⟨hcalls, hcb⟩ hstep
    obtain ⟨q, hq, rfl⟩ := Option.map_eq_some_iff.mp hstep
    have hcb' : (q.reqCb self x.1 x.2).cb = false := (cb_reqCb q self x.1 x.2).trans (hcb q hq)
    have hnone : (q.reqCb self x.1 x.2).go.1 = none := by
      by_contra hne
      obtain ⟨b, hb⟩ := Option.ne_none_iff_exists'.mp hne
      simp [cb_of_go hb] at hcb'
    constructor
    · simp [Session.after, hnone, hcalls]
    · intro r hr
      rw [(go_snd hr).1]
      simp [hcb']
  exact hend.1

/-- Without an early decision the last answer decides. -/
theorem verdict_of_early_none (h : q.early = none) (hle : q.accepted ≤ q.acceptThreshold) :
    verdict q = q.final := by
  unfold early at h
  unfold verdict
  split_ifs at h with h1 h2 h3
  rw [if_neg h1, if_neg (by omega), if_neg h3]

section

variable (self : ℕ) (hsome : ∀ x ∈ as, x.2 ≠ none) (hq : Counted n as.length q) (hcb : q.cb)
  (hle : q.accepted ≤ q.acceptThreshold)

include self hsome hq hcb hle

theorem verdict_of_go {b : Bool} (h : q.go.1 = some b) : verdict (counts self q as) = b := by
  rcases (go_eq_some hcb).mp h with hearly | ⟨hearly, hall, hfinal⟩
  · exact verdict_of_early self hsome hq hearly
  · have hnil : as = [] := by
      have := hq.left
      exact List.eq_nil_of_length_eq_zero (by omega)
    subst hnil
    exact (verdict_of_early_none hearly hle).trans hfinal

/-- The callback is called with the decision for all answers. -/
theorem run_calls (hrun : run (Session.answer self) (.after [] q) as = some t) :
    t.calls = [verdict (counts self q as)] := by
  induction as generalizing q with
  | nil =>
    obtain ⟨hnone, -⟩ := after_last hq (.inl ⟨hcb, rfl, hle⟩)
    obtain ⟨b, hb⟩ := Option.ne_none_iff_exists'.mp (go_snd_eq_none hnone hcb)
    obtain rfl := Option.some.inj hrun
    rw [verdict_of_go self hsome hq hcb hle hb]
    simp [Session.after, hb]
  | cons x as ih =>
    cases hgo : q.go.1 with
    | some b =>
      rw [verdict_of_go self hsome hq hcb hle hgo, calls_of_decided self ?_ hrun]
      · simp [Session.after, hgo]
      · intro r hr
        rw [(go_snd hr).1]
        simp [hgo]
    | none =>
      obtain ⟨-, hne, hsnd⟩ := go_none hcb hgo
      have hafter : Session.after [] q = ⟨some q, []⟩ := by
        simp [Session.after, hgo, hsnd]
      rw [hafter] at hrun
      obtain ⟨u, hu, hrest⟩ := run_cons_eq_some.mp hrun
      obtain rfl := Option.some.inj hu
      have hpending : q.Pending [] := .inl ⟨hcb, rfl, by omega⟩
      obtain ⟨hcb', -, hle'⟩ | ⟨-, b, hb⟩ := hpending.reqCb hq self x.1 x.2
      · exact ih (fun y hy => hsome y (List.mem_cons_of_mem x hy)) (hq.reqCb self x.1 x.2) hcb' hle'
          hrest
      · exact nomatch hb

end

/-- The quorum is there, and not more answers than the threshold are accepted before the
callback was called. -/
def Session.Open (s : Session) : Prop :=
  ∃ q, s.quorum = some q ∧ q.Fits ∧ (q.acceptThreshold < q.accepted → s.calls ≠ [])

/-- The quorum is destroyed, and the callback was called once. -/
def Session.Closed (s : Session) (b : Bool) : Prop := s.quorum = none ∧ s.calls = [b]

theorem Waiting.opened (h : Waiting n left s) (hn : n ≤ 64) : s.Open := by
  obtain ⟨q, hs, hq, hpending⟩ := h
  refine ⟨q, hs, hq.fits hn, fun hlt => ?_⟩
  obtain ⟨-, -, hle⟩ | ⟨-, b, hb⟩ := hpending
  · omega
  · simp [hb]

theorem waiting_start (quorum : ℕ) (change : Change) (h : left + fails + 1 = n)
    (hleft : 0 < left) : Waiting n left (.start n quorum fails change) :=
  waiting_after (counted_start quorum change h).1 (undecided_start quorum change h) hleft

theorem closed_end (self quorum : ℕ) (change : Change)
    (as : List (ℕ × Option Answer)) (h : as.length + fails + 1 = n) :
    ∃ t b, run (Session.answer self) (.start n quorum fails change) as = some t ∧ t.Closed b := by
  by_cases has : as = []
  · subst has
    obtain ⟨hnone, b, hb⟩ :=
      after_last (counted_start quorum change h).1 (undecided_start quorum change h)
    exact ⟨_, b, rfl, hnone, hb⟩
  · obtain ⟨t, ht, hnone, b, hb⟩ := run_last self has
      (waiting_start quorum change h (List.length_pos_iff.mpr has))
    exact ⟨t, b, ht, hnone, hb⟩

/-- A quorum is destroyed exactly with the last answer. The callback is called exactly once, and
before more answers than the threshold are accepted. Without failures the decision does not
depend on the order of the answers. -/
theorem decides_once (self quorum fails : ℕ) (change : Change) {n : ℕ} (h64 : n ≤ 64)
    (as : List (ℕ × Option Answer)) (hlen : as.length + fails + 1 = n) :
    (∀ k < as.length, ∃ s, run (Session.answer self) (.start n quorum fails change) (as.take k) =
      some s ∧ s.Open) ∧
    ∃ s b, run (Session.answer self) (.start n quorum fails change) as = some s ∧ s.Closed b ∧
      ((∀ x ∈ as, x.2 ≠ none) → ∀ bs : List (ℕ × Option Answer), bs.Perm as →
        ∃ t, run (Session.answer self) (.start n quorum fails change) bs = some t ∧
          t.Closed b) := by
  constructor
  · intro k hk
    have htake : (as.take k).length = k := by simp; omega
    have hstart : Waiting n (as.length - k + (as.take k).length)
        (.start n quorum fails change) :=
      waiting_start quorum change (by omega) (by omega)
    obtain ⟨t, ht, hwait⟩ := run_waiting self (as.take k) (by omega) hstart
    exact ⟨t, ht, hwait.opened h64⟩
  · obtain ⟨s, b, hs, hclosed⟩ := closed_end self quorum change as hlen
    refine ⟨s, b, hs, hclosed, fun hsome bs hperm => ?_⟩
    have hlen' : bs.length + fails + 1 = n := by rw [hperm.length_eq, hlen]
    obtain ⟨t, b', ht, hnone, hcalls⟩ := closed_end self quorum change bs hlen'
    obtain ⟨hq, hacc, hcb⟩ := counted_start quorum change hlen
    have has := run_calls self hsome hq hcb (by omega) hs
    have hbs := run_calls self (fun x hx => hsome x (hperm.subset hx))
      (hperm.length_eq ▸ hq) hcb (by omega) ht
    rw [counts_perm self _ hperm hsome, ← has, hclosed.2] at hbs
    exact ⟨t, ht, hnone, hbs⟩

/-- Three nodes, of which one accepts and the other one does not answer. -/
theorem decides_once_three : ∃ s b, run (Session.answer 0)
    (.start 3 2 0 ⟨0, 1, .master, .new, 0, false, 0⟩) [(1, some .accept), (2, none)] = some s ∧
      s.Closed b := by
  have hlen : [(1, some Answer.accept), (2, none)].length + 0 + 1 = 3 := rfl
  obtain ⟨-, s, b, hs, hclosed, -⟩ := decides_once (n := 3) 0 2 0
    ⟨0, 1, .master, .new, 0, false, 0⟩ (by decide) [(1, some .accept), (2, none)] hlen
  exact ⟨s, b, hs, hclosed⟩

end ThingsDB.Changes.Quorum
