import ThingsDB.Lib.Transition
import ThingsDB.Changes.Vote

/-!
# Runs of one node

The change administration receives calls in any order: requests for an id, own
changes, quorum results, packages and loops. Next to the administration the
state holds the changes whose quorum has not called back yet, and three
histories: the accepted ids, the proposed ids and the executions.
-/

namespace ThingsDB.Changes

open List

/-- A call. The answers of `ti_nodes_has_quorum`, the number of requests which
could be sent and all clock readings are up to the caller. -/
inductive Op where
  | acceptId (x : ℕ)
  | createNewChange (hasQuorum : Bool) (time : ℚ) (requests : ℕ)
  | onReqChangeId (uid : ℕ) (accepted hasQuorum : Bool) (requests : ℕ)
  | addChange (id : ℕ) (allowGap : Bool) (time : ℚ)
  | loop (w : Clock)

structure Run where
  node : Node
  pending : List Change
  accepted : List ℕ
  proposed : List ℕ
  executed : List Exec

variable {r' : Run} {c : Change}

namespace Run

def start (s : Node) : Run := ⟨s, [], [], [], []⟩

/-- `changes__req_change_id`; the quorum keeps the change until it calls back. -/
def reqChangeId (r : Run) (change : Change) (requests : ℕ) : Run :=
  let p := r.node.reqChangeId change requests
  { r with node := p.2, pending := p.1 :: r.pending, proposed := p.1.id :: r.proposed }

def createNewChange (r : Run) (hasQuorum : Bool) (time : ℚ) (requests : ℕ) : Run :=
  if hasQuorum then
    let p := r.node.create .master time
    { r with node := p.2 }.reqChangeId p.1 requests
  else r

def newId (r : Run) (change : Change) (hasQuorum : Bool) (requests : ℕ) : Run :=
  let r := { r with node := r.node.rmval change.uid }
  if hasQuorum then r.reqChangeId change requests else r

/-- `changes__on_req_change_id`; a quorum calls back once. -/
def onReqChangeId (r : Run) (uid : ℕ) (accepted hasQuorum : Bool) (requests : ℕ) : Run :=
  match r.pending.find? fun c => c.uid = uid with
  | none => r
  | some change =>
    let r := { r with pending := r.pending.eraseP fun c => c.uid = uid }
    if accepted then { r with node := r.node.setReady uid }
    else r.newId change hasQuorum requests

/-- `ti_changes_accept_id` with the answer recorded. -/
def acceptId (r : Run) (x : ℕ) : Run :=
  let p := r.node.acceptId x
  { r with
    node := p.2
    accepted := if p.1 = .accept then x :: r.accepted else r.accepted }

/-- A call; the result is `none` when an assertion fails. -/
def step (r : Run) : Op → Option Run
  | .acceptId x => some (r.acceptId x)
  | .createNewChange hasQuorum time requests => some (r.createNewChange hasQuorum time requests)
  | .onReqChangeId uid accepted hasQuorum requests =>
    some (r.onReqChangeId uid accepted hasQuorum requests)
  | .addChange id allowGap time =>
    (r.node.addChange id allowGap time).map fun p => { r with node := p.2 }
  | .loop w =>
    (r.node.loop w 5).map fun p => { r with node := p.1, executed := r.executed ++ p.2 }

/-- The invariant behind the order of execution: the queue is ordered, a pending
change is a new change of this node, and the executions so far form a timeline
from the first committed id to the present one. -/
structure Sound (first : ℕ) (r : Run) : Prop where
  ordered : r.node.Ordered
  pendingNew : ∀ c ∈ r.pending, c.status = .new ∧ c.tp = .master ∧ c.uid < r.node.nextUid
  timeline : Timeline first r.executed r.node.ccid

inductive Effect (r r' : Run) : Prop where
  | answer (x : ℕ) (hnode : r'.node = (r.node.acceptId x).2)
      (hacc : r'.accepted = (r.acceptId x).accepted) (hprop : r'.proposed = r.proposed)
  | propose (s : Node) (c : Change) (requests : ℕ)
      (hnext : s.nextChangeId = r.node.nextChangeId) (hskip : s.skippedIds = r.node.skippedIds)
      (hnode : r'.node = (s.reqChangeId c requests).2) (hacc : r'.accepted = r.accepted)
      (hprop : r'.proposed = r.node.nextChangeId :: r.proposed)
  | keep (hnext : r.node.nextChangeId ≤ r'.node.nextChangeId)
      (hskip : r'.node.skippedIds = r.node.skippedIds) (hacc : r'.accepted = r.accepted)
      (hprop : r'.proposed = r.proposed)

theorem Effect.of_pending {r : Run} {pending : List Change}
    (h : Effect { r with pending := pending } r') : r.Effect r' := by
  cases h with
  | answer x hnode hacc hprop => exact .answer x hnode hacc hprop
  | propose s c requests hnext hskip hnode hacc hprop =>
    exact .propose s c requests hnext hskip hnode hacc hprop
  | keep hnext hskip hacc hprop => exact .keep hnext hskip hacc hprop

theorem Effect.nextChangeId_le {r : Run} (h : r.Effect r') :
    r.node.nextChangeId ≤ r'.node.nextChangeId := by
  cases h with
  | answer x hnode hacc hprop =>
    rw [hnode]
    exact Node.nextChangeId_le_acceptId r.node x
  | propose s c requests hnext hskip hnode hacc hprop =>
    rw [hnode, ← hnext]
    exact Nat.le_succ _
  | keep hnext hskip hacc hprop => exact hnext

variable {first : ℕ} {r : Run}

section

variable (h : r.Sound first)

include h

theorem Sound.acceptId (x : ℕ) : (r.acceptId x).Sound first where
  ordered := h.ordered.acceptId x
  pendingNew := by
    intro c hc
    obtain ⟨hnew, hmaster, hlt⟩ := h.pendingNew c hc
    exact ⟨hnew, hmaster, (Node.acceptId_nextUid r.node x).symm ▸ hlt⟩
  timeline := (Node.acceptId_ccid r.node x).symm ▸ h.timeline

theorem Sound.reqChangeId (hnew : c.status = .new) (hmaster : c.tp = .master)
    (hlt : c.uid < r.node.nextUid) (hne : ∀ d ∈ r.node.queue, d.uid ≠ c.uid) (requests : ℕ) :
    (r.reqChangeId c requests).Sound first where
  ordered := h.ordered.reqChangeId hne hlt hnew hmaster
  pendingNew := by
    intro d hd
    rcases mem_cons.mp hd with rfl | hd
    · exact ⟨hnew, hmaster, hlt⟩
    · exact h.pendingNew d hd
  timeline := h.timeline

theorem createNewChange_spec (hasQuorum : Bool) (time : ℚ) (requests : ℕ) :
    (r.createNewChange hasQuorum time requests).Sound first ∧
      r.Effect (r.createNewChange hasQuorum time requests) := by
  unfold createNewChange
  split_ifs
  · have hraise : Sound first { r with node := (r.node.create .master time).2 } :=
      ⟨h.ordered.raise (Nat.le_succ _) le_rfl h.ordered.committed,
        fun c hc => ⟨(h.pendingNew c hc).1, (h.pendingNew c hc).2.1,
          (h.pendingNew c hc).2.2.trans (Nat.lt_succ_self _)⟩, h.timeline⟩
    refine ⟨hraise.reqChangeId rfl rfl (Nat.lt_succ_self _) ?_ requests, ?_⟩
    · exact fun d hd => (h.ordered.allocated d hd).ne
    · exact .propose (r.node.create .master time).2 _ requests rfl rfl rfl rfl rfl
  · exact ⟨h, .keep le_rfl rfl rfl rfl⟩

theorem newId_spec (hnew : c.status = .new)
    (hmaster : c.tp = .master) (hlt : c.uid < r.node.nextUid) (hasQuorum : Bool) (requests : ℕ) :
    (r.newId c hasQuorum requests).Sound first ∧ r.Effect (r.newId c hasQuorum requests) := by
  have hrm : Sound first { r with node := r.node.rmval c.uid } :=
    ⟨h.ordered.rmval c.uid, h.pendingNew, h.timeline⟩
  unfold newId
  dsimp only
  split_ifs
  · refine ⟨hrm.reqChangeId hnew hmaster hlt ?_ requests,
      .propose (r.node.rmval c.uid) c requests rfl rfl rfl rfl rfl⟩
    exact fun d hd => ((Node.mem_rmval h.ordered).mp hd).2
  · exact ⟨hrm, .keep le_rfl rfl rfl rfl⟩

theorem onReqChangeId_spec (uid : ℕ) (accepted hasQuorum : Bool) (requests : ℕ) :
    (r.onReqChangeId uid accepted hasQuorum requests).Sound first ∧
      r.Effect (r.onReqChangeId uid accepted hasQuorum requests) := by
  unfold onReqChangeId
  split
  next => exact ⟨h, .keep le_rfl rfl rfl rfl⟩
  next c hfind =>
    obtain ⟨hnew, hmaster, hlt⟩ := h.pendingNew c (mem_of_find?_eq_some hfind)
    have hrest : Sound first { r with pending := r.pending.eraseP fun c => c.uid = uid } :=
      ⟨h.ordered, fun d hd => h.pendingNew d (mem_of_mem_eraseP hd), h.timeline⟩
    split_ifs
    · exact ⟨⟨h.ordered.setReady uid, hrest.pendingNew, h.timeline⟩, .keep le_rfl rfl rfl rfl⟩
    · obtain ⟨hs, heff⟩ := newId_spec hrest hnew hmaster hlt hasQuorum requests
      exact ⟨hs, heff.of_pending⟩

/-- On a sound state every call succeeds and leaves a sound state. -/
theorem step_spec (op : Op) :
    ∃ r', r.step op = some r' ∧ r'.Sound first ∧ r.Effect r' ∧ r.node.ccid ≤ r'.node.ccid := by
  cases op with
  | acceptId x =>
    exact ⟨_, rfl, h.acceptId x, .answer x rfl rfl rfl, (Node.acceptId_ccid r.node x).ge⟩
  | createNewChange hasQuorum time requests =>
    obtain ⟨hs, heff⟩ := createNewChange_spec h hasQuorum time requests
    refine ⟨_, rfl, hs, heff, ?_⟩
    unfold createNewChange
    split_ifs <;> exact le_rfl
  | onReqChangeId uid accepted hasQuorum requests =>
    obtain ⟨hs, heff⟩ := onReqChangeId_spec h uid accepted hasQuorum requests
    refine ⟨_, rfl, hs, heff, ?_⟩
    unfold onReqChangeId newId
    split
    · exact le_rfl
    · split_ifs <;> exact le_rfl
  | addChange id allowGap time =>
    obtain ⟨b, s', heq, ho, hk⟩ := Node.addChange_ordered h.ordered id allowGap time
    refine ⟨{ r with node := s' }, by simp [step, heq], ⟨ho, ?_, hk.ccid.symm ▸ h.timeline⟩,
      .keep hk.next hk.skipped rfl rfl, hk.ccid.ge⟩
    intro c hc
    obtain ⟨hnew, hmaster, hlt⟩ := h.pendingNew c hc
    exact ⟨hnew, hmaster, hlt.trans_le hk.uid⟩
  | loop w =>
    obtain ⟨s', es, heq, ho, hadv, htl⟩ := Node.loop_good w 5 h.ordered
    refine ⟨{ r with node := s', executed := r.executed ++ es }, by simp [step, heq],
      ⟨ho, ?_, h.timeline.append htl⟩, .keep hadv.next.ge hadv.skipped rfl rfl, hadv.ccid⟩
    intro c hc
    obtain ⟨hnew, hmaster, hlt⟩ := h.pendingNew c hc
    exact ⟨hnew, hmaster, hadv.uid.symm ▸ hlt⟩

end

/-- The invariant behind the vote: everything which was accepted or proposed is
spent, so it cannot be accepted again. -/
structure Voting (first : ℕ) (r : Run) : Prop extends r.Sound first where
  skippedBelow : ∀ x ∈ r.node.skippedIds, x < r.node.nextChangeId
  acceptedSpent : ∀ x ∈ r.accepted, r.node.Spent x
  proposedSpent : ∀ x ∈ r.proposed, r.node.Spent x
  nodup : r.accepted.Nodup
  disjoint : ∀ x ∈ r.accepted, x ∉ r.proposed

theorem Voting.fair (h : r.Voting first) : r.node.Fair := ⟨h.ordered, h.skippedBelow⟩

theorem Voting.of_answer (h : r.Voting first) (hs : r'.Sound first) {x : ℕ}
    (hnode : r'.node = (r.node.acceptId x).2) (hacc : r'.accepted = (r.acceptId x).accepted)
    (hprop : r'.proposed = r.proposed) : r'.Voting first := by
  have hskip := (h.fair.acceptId x).skippedBelow
  have hspent : ∀ y, r.node.Spent y → (r.node.acceptId x).2.Spent y := fun y hy => hy.acceptId
  by_cases hyes : (r.node.acceptId x).1 = .accept
  · have hg := Node.acceptId_grants h.fair hyes
    have hlist : r'.accepted = x :: r.accepted := hacc.trans (if_pos hyes)
    refine ⟨hs, hnode ▸ hskip, ?_, ?_, ?_, ?_⟩
    · rw [hlist, hnode]
      intro y hy
      rcases mem_cons.mp hy with rfl | hy
      · exact hg.spent_after
      · exact hspent y (h.acceptedSpent y hy)
    · rw [hprop, hnode]
      exact fun y hy => hspent y (h.proposedSpent y hy)
    · rw [hlist]
      exact nodup_cons.mpr ⟨fun hx => hg.open_before (h.acceptedSpent x hx), h.nodup⟩
    · rw [hlist, hprop]
      intro y hy
      rcases mem_cons.mp hy with rfl | hy
      · exact fun hx => hg.open_before (h.proposedSpent y hx)
      · exact h.disjoint y hy
  · have hlist : r'.accepted = r.accepted := hacc.trans (if_neg hyes)
    refine ⟨hs, hnode ▸ hskip, ?_, ?_, hlist ▸ h.nodup, ?_⟩
    · rw [hlist, hnode]
      exact fun y hy => hspent y (h.acceptedSpent y hy)
    · rw [hprop, hnode]
      exact fun y hy => hspent y (h.proposedSpent y hy)
    · rw [hlist, hprop]
      exact h.disjoint

theorem Voting.of_effect (h : r.Voting first) (hs : r'.Sound first)
    (heff : r.Effect r') : r'.Voting first := by
  have hle := heff.nextChangeId_le
  cases heff with
  | answer x hnode hacc hprop => exact h.of_answer hs hnode hacc hprop
  | keep hnext hskip hacc hprop =>
    have hspent : ∀ y, r.node.Spent y → r'.node.Spent y := fun y hy => hy.of_le hle hskip
    refine ⟨hs, ?_, ?_, ?_, hacc ▸ h.nodup, ?_⟩
    · rw [hskip]
      exact fun y hy => (h.skippedBelow y hy).trans_le hle
    · rw [hacc]
      exact fun y hy => hspent y (h.acceptedSpent y hy)
    · rw [hprop]
      exact fun y hy => hspent y (h.proposedSpent y hy)
    · rw [hacc, hprop]
      exact h.disjoint
  | propose s c requests hnext hskip hnode hacc hprop =>
    have hskip' : r'.node.skippedIds = r.node.skippedIds := by
      rw [hnode]
      exact hskip
    have hspent : ∀ y, r.node.Spent y → r'.node.Spent y := fun y hy => hy.of_le hle hskip'
    refine ⟨hs, ?_, ?_, ?_, hacc ▸ h.nodup, ?_⟩
    · rw [hskip']
      exact fun y hy => (h.skippedBelow y hy).trans_le hle
    · rw [hacc]
      exact fun y hy => hspent y (h.acceptedSpent y hy)
    · rw [hprop]
      intro y hy
      rcases mem_cons.mp hy with rfl | hy
      · refine ⟨?_, fun hx => lt_irrefl _ (h.skippedBelow _ (hskip' ▸ hx))⟩
        rw [hnode, ← hnext]
        exact Nat.lt_succ_self _
      · exact hspent y (h.proposedSpent y hy)
    · rw [hacc, hprop]
      intro y hy hmem
      rcases mem_cons.mp hmem with rfl | hmem
      · exact lt_irrefl _ (h.acceptedSpent _ hy).1
      · exact h.disjoint y hy hmem

theorem start_sound {s : Node} (hq : s.queue = []) (hlt : s.ccid < s.nextChangeId) :
    (start s).Sound s.ccid :=
  ⟨⟨by simp [start, hq], by simp [start, hq], by simp [start, hq], by simp [start, hq], hlt,
    by simp [start, hq], by simp [start, hq]⟩, by simp [start], le_rfl⟩

/-- In every run a node accepts an id at most once, and only when it has not
proposed the id, the id is not committed and no queued change carries it. The
next change id never decreases. -/
theorem acceptId_at_most_once {s : Node} (hs : s.Initial) (ops : List Op) :
    ∃ r, Transition.run step (start s) ops = some r ∧
      r.accepted.Nodup ∧ (∀ x ∈ r.accepted, x ∉ r.proposed) ∧
      (∀ x, (r.node.acceptId x).1 = .accept →
        x ∉ r.accepted ∧ x ∉ r.proposed ∧ r.node.ccid < x ∧ ∀ c ∈ r.node.queue, c.id ≠ x) ∧
      ∀ op r', r.step op = some r' → r.node.nextChangeId ≤ r'.node.nextChangeId := by
  have hstart : (start s).Voting s.ccid :=
    ⟨start_sound hs.queue hs.committed, by simp [start, hs.skipped], by simp [start],
      by simp [start], List.nodup_nil, by simp [start]⟩
  have hstep : ∀ (r : Run) (op : Op), r.Voting s.ccid →
      ∃ r' : Run, r.step op = some r' ∧ r'.Voting s.ccid := by
    intro r op hv
    obtain ⟨r', heq, hs, heff, -⟩ := step_spec hv.toSound op
    exact ⟨r', heq, hv.of_effect hs heff⟩
  obtain ⟨r, hrun, hv⟩ := Transition.run_total hstep hstart ops
  refine ⟨r, hrun, hv.nodup, hv.disjoint, ?_, ?_⟩
  · intro x hx
    have hg := Node.acceptId_grants hv.fair hx
    exact ⟨fun hmem => hg.open_before (hv.acceptedSpent x hmem),
      fun hmem => hg.open_before (hv.proposedSpent x hmem), hg.above, hg.unqueued⟩
  · intro op r' hr'
    obtain ⟨r'', heq, -, heff, -⟩ := step_spec hv.toSound op
    obtain rfl : r' = r'' := Option.some.inj (hr'.symm.trans heq)
    exact heff.nextChangeId_le

theorem acceptId_at_most_once_boot : ∃ r,
    Transition.run step (start (Node.boot 0)) [.acceptId 3, .acceptId 1, .acceptId 1] = some r ∧
      r.accepted.Nodup := by
  obtain ⟨r, hrun, hnodup, -⟩ := acceptId_at_most_once (Node.boot_initial 0)
    [.acceptId 3, .acceptId 1, .acceptId 1]
  exact ⟨r, hrun, hnodup⟩

/-- In every run the queue strictly increases below the next change id, no
assertion fails, and the changes are executed once, in the order of their ids. -/
theorem executed_once_in_order {s : Node} (hq : s.queue = []) (hlt : s.ccid < s.nextChangeId)
    (ops : List Op) :
    ∃ r, Transition.run step (start s) ops = some r ∧
      (r.node.queue.Pairwise fun a b => a.id < b.id) ∧
      (∀ c ∈ r.node.queue, c.id < r.node.nextChangeId) ∧
      (∀ e ∈ r.executed, e.ccid < e.change.id ∧ e.ccidAfter = e.change.id ∧
        ∀ c ∈ e.queue, e.ccid < c.id → e.change.id ≤ c.id) ∧
      (r.executed.map fun e => e.change.id).Pairwise (· < ·) ∧
      ∀ op, ∃ r', r.step op = some r' ∧ r.node.ccid ≤ r'.node.ccid := by
  have hstep : ∀ (r : Run) (op : Op), r.Sound s.ccid →
      ∃ r' : Run, r.step op = some r' ∧ r'.Sound s.ccid := by
    intro r op h
    obtain ⟨r', heq, hs, -, -⟩ := step_spec h op
    exact ⟨r', heq, hs⟩
  obtain ⟨r, hrun, h⟩ := Transition.run_total hstep (start_sound hq hlt) ops
  refine ⟨r, hrun, h.ordered.sorted, h.ordered.below, ?_, h.timeline.increasing, ?_⟩
  · intro e he
    have hp := (h.timeline.proper e he).2
    exact ⟨hp.above, hp.commits, hp.lowest⟩
  · intro op
    obtain ⟨r', heq, -, -, hle⟩ := step_spec h op
    exact ⟨r', heq, hle⟩

theorem executed_once_in_order_boot : ∃ r,
    Transition.run step (start (Node.boot 0))
      [.createNewChange true 0 2, .addChange 2 false 0, .onReqChangeId 0 true true 0,
        .loop ⟨0, 0, false⟩] = some r ∧
      (r.executed.map fun e => e.change.id).Pairwise (· < ·) := by
  obtain ⟨r, hrun, -, -, -, hincreasing, -⟩ := executed_once_in_order (s := Node.boot 0) rfl
    (by decide) [.createNewChange true 0 2, .addChange 2 false 0, .onReqChangeId 0 true true 0,
      .loop ⟨0, 0, false⟩]
  exact ⟨r, hrun, hincreasing⟩

end Run
end ThingsDB.Changes
