import ThingsDB.Changes.Node
import ThingsDB.Lib.Ballot

/-!
# The quorum of a proposed change id

Translation of `ti/quorum.c`. A cluster has at most 127 nodes, so the 8-bit
counters are plain numbers here. Next to the fields of `ti_quorum_t` a quorum
carries the change which is handed to the callback.
-/

namespace ThingsDB.Changes

/-- `ti_quorum_t`; `cb` tells if the callback is still set. -/
structure Quorum where
  diffRequests : ℤ
  accepted : ℕ
  rejected : ℕ
  collisions : ℕ
  requests : ℕ
  quorum : ℕ
  winCollision : Bool
  acceptThreshold : ℕ
  cb : Bool
  change : Change

variable {q : Quorum}

namespace Quorum

def shrinkOne (q : Quorum) : Quorum :=
  { q with acceptThreshold := q.requests / 2, requests := q.requests - 1 }

/-- `ti_quorum_new` for a cluster of `n` nodes. -/
def new (n quorum : ℕ) (change : Change) : Quorum :=
  shrinkOne ⟨0, 0, 0, 0, n, quorum, true, 0, true, change⟩

def answers (q : Quorum) : ℕ := q.accepted + q.rejected + q.collisions

/-- The part of `ti_quorum_go` which may decide before all answers are there. -/
def early (q : Quorum) : Option Bool :=
  if q.requests < q.quorum then some false
  else if q.accepted = q.acceptThreshold then some true
  else if q.acceptThreshold < q.rejected + q.requests % 2 then some false
  else none

/-- The part of `ti_quorum_go` which decides when all answers are there. -/
def final (q : Quorum) : Bool :=
  if q.diffRequests < 0 then false
  else if q.diffRequests < q.collisions ∧ q.accepted = q.rejected then q.winCollision
  else q.rejected < q.accepted

/-- `ti_quorum_go`: the argument of the callback if it is called, and the quorum
unless it is destroyed. -/
def go (q : Quorum) : Option Bool × Option Quorum :=
  let verdict := if q.cb then q.early else none
  let q' := { q with cb := q.cb && verdict.isNone }
  if q.answers < q.requests then (verdict, some q')
  else (if q'.cb then some q.final else verdict, none)

/-- `ti_quorum_req_cb` up to `ti_quorum_go`, where `self` and `other` are the ids
of this node and of the node which has answered. Without an answer, or with one
which is not understood, the quorum shrinks. -/
def reqCb (self other : ℕ) (q : Quorum) : Option Answer → Quorum
  | some .accept => { q with accepted := q.accepted + 1 }
  | some .reject => { q with rejected := q.rejected + 1 }
  | some (.collision n) =>
    { q with
      diffRequests :=
        if n ≠ q.requests then
          if n < q.requests then q.diffRequests + 1 else q.diffRequests - 1
        else q.diffRequests
      winCollision := if n = q.requests ∧ other < self then false else q.winCollision
      collisions := q.collisions + 1 }
  | none => q.shrinkOne

/-- While the callback is set, an early decision goes before the final one. -/
theorem go_eq_some (hcb : q.cb) {b : Bool} :
    q.go.1 = some b ↔
      q.early = some b ∨ q.early = none ∧ q.requests ≤ q.answers ∧ q.final = b := by
  unfold go
  cases hearly : q.early <;> by_cases hwait : q.answers < q.requests <;> simp [hcb, hwait]
  omega

/-- The callback with `true`: enough accepted answers, or all answers. -/
theorem go_true (hcb : q.cb) (h : q.go.1 = some true) :
    q.accepted = q.acceptThreshold ∨ q.requests ≤ q.answers ∧ q.final := by
  rcases (go_eq_some hcb).mp h with hearly | ⟨-, hall, hfinal⟩
  · unfold early at hearly
    split_ifs at hearly with hlow hacc hrej
    · simp at hearly
    · exact Or.inl hacc
    · simp at hearly
  · exact Or.inr ⟨hall, hfinal⟩

/-- The callback with `false`, for a quorum which can be reached. -/
theorem go_false (hcb : q.cb) (hquorum : q.quorum ≤ q.requests) (h : q.go.1 = some false) :
    q.acceptThreshold < q.rejected + q.requests % 2 ∨
      q.requests ≤ q.answers ∧ q.accepted ≠ q.acceptThreshold ∧ q.final = false := by
  rcases (go_eq_some hcb).mp h with hearly | ⟨hearly, hall, hfinal⟩
  · unfold early at hearly
    split_ifs at hearly with hlow hacc hrej
    · omega
    · simp at hearly
    · exact Or.inl hrej
  · unfold early at hearly
    split_ifs at hearly with hlow hacc hrej
    exact Or.inr ⟨hall, hacc, hfinal⟩

/-- No callback yet: answers are missing, and the quorum stays as it is. -/
theorem go_none (hcb : q.cb) (h : q.go.1 = none) :
    q.answers < q.requests ∧ q.accepted ≠ q.acceptThreshold ∧ q.go.2 = some q := by
  have hearly : q.early = none := by
    cases he : q.early with
    | none => rfl
    | some b => exact absurd ((go_eq_some hcb).mpr (Or.inl he)) (by simp [h])
  have hwait : q.answers < q.requests := by
    by_contra hcon
    have := (go_eq_some hcb).mpr (Or.inr ⟨hearly, not_lt.mp hcon, rfl⟩)
    simp [h] at this
  refine ⟨hwait, ?_, ?_⟩
  · intro hacc
    unfold early at hearly
    split_ifs at hearly
  · obtain ⟨d, a, r, c, n, k, w, t, cb, change⟩ := q
    simp_all [go]

theorem cb_of_go {b : Bool} (h : q.go.1 = some b) : q.cb := by
  unfold go at h
  by_contra hcb
  split_ifs at h
  all_goals simp_all

/-- Without a callback, `ti_quorum_go` only waits for the last answer. -/
theorem go_snd_eq_none (h : q.go.2 = none) (hcb : q.cb) : q.go.1 ≠ none := by
  intro hnone
  simp [(go_none hcb hnone).2.2] at h

/-- A quorum which survives still waits, and has only lost its callback. -/
theorem go_snd {r : Quorum} (h : q.go.2 = some r) :
    r = { q with cb := q.cb && q.go.1.isNone } ∧ q.answers < q.requests := by
  unfold go at h ⊢
  by_cases hwait : q.answers < q.requests
  · simp only [hwait, if_true, Option.some.injEq] at h ⊢
    exact ⟨h.symm, trivial⟩
  · simp [hwait] at h

end Quorum
end ThingsDB.Changes
