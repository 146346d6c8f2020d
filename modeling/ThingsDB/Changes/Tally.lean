import ThingsDB.Changes.Quorum

/-!
# The counters of a quorum and the answers behind them

As long as no answer is lost, the counters of a quorum are determined by the
answers which have arrived.
-/

namespace ThingsDB.Changes

open Ballot Function

namespace Answer

def isAccept : Answer → Bool
  | .accept => true
  | _ => false

def isReject : Answer → Bool
  | .reject => true
  | _ => false

def isCollision : Answer → Bool
  | .collision _ => true
  | _ => false

/-- A collision with a change which has sent less requests. -/
def isBelow (requests : ℕ) : Answer → Bool
  | .collision n => n < requests
  | _ => false

/-- A collision with a change which has sent more requests. -/
def isAbove (requests : ℕ) : Answer → Bool
  | .collision n => requests < n
  | _ => false

@[simp] theorem any_isAccept {o : Option Answer} : o.any isAccept ↔ o = some .accept := by
  rcases o with - | (- | - | n) <;> simp [isAccept]

@[simp] theorem any_isReject {o : Option Answer} : o.any isReject ↔ o = some .reject := by
  rcases o with - | (- | - | n) <;> simp [isReject]

/-- Every answer is of one of the three kinds. -/
theorem votes_add {N : ℕ} (H : Fin N → Option Answer) :
    votes H isAccept + votes H isReject + votes H isCollision = votes H fun _ => true := by
  have hor : (fun _ => true) = fun a : Answer => (a.isAccept || a.isReject) || a.isCollision := by
    funext a
    cases a <;> rfl
  rw [hor, votes_or, votes_or]
  · intro a
    cases a <;> simp [isAccept, isReject]
  · intro a
    cases a <;> simp [isAccept, isReject, isCollision]

end Answer

namespace Quorum

variable {N : ℕ} {ids : Fin N → ℕ} {i : Fin N} {R : Finset (Fin N)} {H : Fin N → Option Answer}
  {q : Quorum}

/-- The quorum `q` of node `i` with the voters `R` has lost no answer and has counted the
answers `H`. -/
structure Tally (ids : Fin N → ℕ) (i : Fin N) (R : Finset (Fin N)) (H : Fin N → Option Answer)
    (q : Quorum) : Prop where
  requests : q.requests + 1 = R.card
  threshold : q.acceptThreshold = R.card / 2
  reachable : R.card = N → q.quorum ≤ q.requests
  mem : i ∈ R
  outside : ∀ j ∉ R.erase i, H j = none
  accepted : q.accepted = votes H Answer.isAccept
  rejected : q.rejected = votes H Answer.isReject
  collisions : q.collisions = votes H Answer.isCollision
  diff : q.diffRequests =
    (votes H (Answer.isBelow q.requests) : ℤ) - votes H (Answer.isAbove q.requests)
  win : q.winCollision = true ↔
    ∀ j n, H j = some (.collision n) → n = q.requests → ids i ≤ ids j

theorem Tally.congr (h : Tally ids i R H q) (cb : Bool) (change : Change) :
    Tally ids i R H { q with cb := cb, change := change } :=
  ⟨h.requests, h.threshold, h.reachable, h.mem, h.outside, h.accepted, h.rejected, h.collisions,
    h.diff, h.win⟩

theorem Tally.new {quorum : ℕ} (hquorum : quorum < N) (hi : i ∈ R) (change : Change) :
    Tally ids i R (fun _ => none) { Quorum.new N quorum change with
      requests := R.card - 1, acceptThreshold := R.card / 2 } where
  requests := Nat.sub_add_cancel (Finset.card_pos.mpr ⟨i, hi⟩)
  threshold := rfl
  reachable := fun hR => Nat.le_sub_one_of_lt (hquorum.trans_eq hR.symm)
  mem := hi
  outside := fun _ _ => rfl
  accepted := (votes_none _).symm
  rejected := (votes_none _).symm
  collisions := (votes_none _).symm
  diff := by simp [Quorum.new, shrinkOne]
  win := by simp [Quorum.new, shrinkOne]

section

variable (h : Tally ids i R H q)

include h

theorem Tally.reqCb {j : Fin N} (hj : H j = none) (hR : j ∈ R.erase i) (a : Answer) :
    Tally ids i R (update H j (some a)) (q.reqCb (ids i) (ids j) (some a)) := by
  have hrequests : (q.reqCb (ids i) (ids j) (some a)).requests = q.requests := by cases a <;> rfl
  have hsplit : (∀ k m, update H j (some a) k = some (.collision m) → m = q.requests →
      ids i ≤ ids k) ↔ (a = .collision q.requests → ids i ≤ ids j) ∧
        ∀ k m, H k = some (.collision m) → m = q.requests → ids i ≤ ids k := by
    constructor
    · intro hall
      refine ⟨fun ha => hall j _ (by rw [update_self, ha]) rfl,
        fun k m hk hm => hall k m ?_ hm⟩
      rwa [update_of_ne (by rintro rfl; simp [hj] at hk)]
    · rintro ⟨hnew, hold⟩ k m hk hm
      by_cases hkj : k = j
      · subst hkj
        rw [update_self, hm] at hk
        exact hnew (Option.some.inj hk)
      · rw [update_of_ne hkj] at hk
        exact hold k m hk hm
  constructor
  case requests => exact hrequests ▸ h.requests
  case threshold => cases a <;> exact h.threshold
  case reachable => cases a <;> exact h.reachable
  case mem => exact h.mem
  case outside =>
    intro k hk
    rw [update_of_ne (ne_of_mem_of_not_mem hR hk).symm, h.outside k hk]
  case accepted =>
    cases a <;> simp [Quorum.reqCb, votes_update hj, h.accepted, Answer.isAccept]
  case rejected =>
    cases a <;> simp [Quorum.reqCb, votes_update hj, h.rejected, Answer.isReject]
  case collisions =>
    cases a <;> simp [Quorum.reqCb, votes_update hj, h.collisions, Answer.isCollision]
  case diff =>
    cases a with
    | accept | reject =>
      simp [Quorum.reqCb, votes_update hj, h.diff, Answer.isBelow, Answer.isAbove]
    | collision n =>
      simp only [Quorum.reqCb, votes_update hj, h.diff, Answer.isBelow, Answer.isAbove,
        decide_eq_true_eq]
      split_ifs <;> push_cast <;> omega
  case win =>
    rw [hrequests, hsplit, ← h.win]
    cases a with
    | accept | reject => simp [Quorum.reqCb]
    | collision n =>
      simp only [Quorum.reqCb, Answer.collision.injEq]
      split_ifs with hlose
      · simp only [false_iff, not_and]
        exact fun hle => absurd (hle hlose.1) (by omega)
      · rw [not_and] at hlose
        exact ⟨fun hw => ⟨fun hn => not_lt.mp (hlose hn), hw⟩, fun hw => hw.2⟩

theorem Tally.answers : q.answers = votes H fun _ => true := by
  rw [← Answer.votes_add, Quorum.answers, h.accepted, h.rejected, h.collisions]

theorem Tally.complete (hall : q.requests ≤ q.answers) {j : Fin N} (hj : j ∈ R.erase i) :
    H j ≠ none := by
  intro hnone
  have hlt : votes H (fun _ => true) < (R.erase i).card := by
    refine Finset.card_lt_card ⟨fun k hk => ?_, fun hsub => ?_⟩
    · by_contra hR
      simp [h.outside k hR] at hk
    · simpa [hnone] using hsub hj
  rw [← h.answers, Finset.card_erase_of_mem h.mem] at hlt
  have := h.requests
  omega

theorem Tally.requests_le_answers (hall : ∀ j ∈ R.erase i, H j ≠ none) :
    q.requests ≤ q.answers := by
  have hle : (R.erase i).card ≤ votes H fun _ => true := by
    refine Finset.card_le_card fun j hj => ?_
    obtain ⟨a, ha⟩ := Option.ne_none_iff_exists'.mp (hall j hj)
    simp [ha]
  rw [← h.answers, Finset.card_erase_of_mem h.mem] at hle
  have := h.requests
  omega

end

end Quorum
end ThingsDB.Changes
