import ThingsDB.Changes.Tally

/-!
# Two proposers of one change id

A voter who accepts one of two proposers rejects the other one. Counting the
answers excludes that two quorums with the same voters and without lost answers
are both won, and it decides the case of exactly two proposers completely.
-/

namespace ThingsDB.Changes

open Ballot Finset

variable {N : ℕ} {ids : Fin N → ℕ} {i k : Fin N} {R : Finset (Fin N)}
  {F G H : Fin N → Option Answer} {q r : Quorum} {b : Bool}

/-- What the answers `F` of the voters `R` to a proposer say about the answers `G` to a proposer
`k` of the same id: who accepts the first one has not proposed the id, and votes for nobody
else. -/
structure Excludes (k : Fin N) (R : Finset (Fin N)) (F G : Fin N → Option Answer) : Prop where
  mem : k ∈ R
  outside : ∀ j ∉ R, F j = none
  own : F k ≠ some .accept
  vote : ∀ j, F j = some .accept → G j = none ∨ G j = some .reject
  number : ∀ n, F k = some (.collision n) → n + 1 = R.card

namespace Excludes

theorem outside_erase (hex : Excludes k R F G) (hF : F i = none) : ∀ j ∉ R.erase i, F j = none := by
  intro j hj
  by_cases hji : j = i
  · rwa [hji]
  · exact hex.outside j fun hR => hj (mem_erase.mpr ⟨hji, hR⟩)

theorem accepts_add_le (hex : Excludes k R F G) (hex' : Excludes i R G F) (hik : i ≠ k)
    (hF : F i = none) (hG : G k = none) :
    votes F Answer.isAccept + votes G Answer.isAccept + 2 ≤ R.card := by
  have hcount := votes_add_votes_le (H := F) (G := G) (p := Answer.isAccept)
    (q := Answer.isAccept) (s := Rᶜ ∪ {i, k}) ?_ ?_ ?_
  · have hdisj : Disjoint Rᶜ {i, k} := by
      simp [hex.mem, hex'.mem]
    rw [card_union_of_disjoint hdisj, card_pair hik, card_compl] at hcount
    have := card_le_univ R
    omega
  · intro j hj
    rcases hex.vote j (Answer.any_isAccept.mp hj) with hj | hj <;> simp [hj, Answer.isAccept]
  · intro j hj
    obtain rfl | rfl | hR : j = i ∨ j = k ∨ j ∉ R := by simpa using hj
    · simp [hF]
    · simp [hex.own]
    · simp [hex.outside j hR]
  · intro j hj
    obtain rfl | rfl | hR : j = i ∨ j = k ∨ j ∉ R := by simpa using hj
    · simp [hex'.own]
    · simp [hG]
    · simp [hex'.outside j hR]

section

variable (hex : Excludes k R F G) (hall : ∀ j ∈ R.erase k, G j ≠ none)

include hex hall

theorem reject_of_accept {j : Fin N} (hj : F j = some .accept) : G j = some .reject := by
  refine (hex.vote j hj).resolve_left (hall j (mem_erase.mpr ⟨?_, ?_⟩))
  · rintro rfl
    exact hex.own hj
  · by_contra hR
    simp [hex.outside j hR] at hj

/-- Once all answers to `k` are there, it is rejected by all who accept the other. -/
theorem accepts_le_rejects : votes F Answer.isAccept ≤ votes G Answer.isReject := by
  refine votes_le_votes fun j hj => Answer.any_isReject.mpr ?_
  exact hex.reject_of_accept hall (Answer.any_isAccept.mp hj)

theorem accepts_lt_rejects (hF : F i = none) (hrej : G i = some .reject) :
    votes F Answer.isAccept < votes G Answer.isReject := by
  refine votes_lt_votes (fun j hj => Answer.any_isReject.mpr ?_) (k := i) (by simp [hF])
    (Answer.any_isReject.mpr hrej)
  exact hex.reject_of_accept hall (Answer.any_isAccept.mp hj)

end

end Excludes

namespace Quorum

theorem final_true (h : q.final) :
    q.rejected ≤ q.accepted ∧ (q.accepted = q.rejected → q.winCollision) := by
  unfold final at h
  split_ifs at h with hneg htie
  · exact ⟨htie.2.ge, fun _ => h⟩
  · have hlt : q.rejected < q.accepted := by simpa using h
    exact ⟨hlt.le, fun heq => absurd heq hlt.ne'⟩

/-- The callback of `q` was called with `b`, when `q` had counted some of the
answers `F` of the voters `R` and had lost none. -/
structure Decision (ids : Fin N → ℕ) (i : Fin N) (R : Finset (Fin N)) (F : Fin N → Option Answer)
    (b : Bool) (q : Quorum) : Prop where
  cb : q.cb = true
  verdict : q.go.1 = some b
  bounded : q.accepted ≤ q.acceptThreshold
  tally : ∃ H, (∀ j a, H j = some a → F j = some a) ∧ Tally ids i R H q

theorem Tally.votes_le (h : ∀ j a, H j = some a → F j = some a) (p : Answer → Bool) :
    votes H p ≤ votes F p := by
  refine votes_le_votes fun j hj => ?_
  cases hH : H j with
  | none => simp [hH] at hj
  | some a =>
    rw [h j a hH]
    rwa [hH] at hj

theorem Tally.eq_of_complete (hq : Tally ids i R H q) (hall : q.requests ≤ q.answers)
    (hle : ∀ j a, H j = some a → F j = some a) (hout : ∀ j ∉ R.erase i, F j = none) : H = F := by
  funext j
  by_cases hj : j ∈ R.erase i
  · obtain ⟨a, ha⟩ := Option.ne_none_iff_exists'.mp (hq.complete hall hj)
    rw [ha, hle j a ha]
  · rw [hq.outside j hj, hout j hj]

/-- A quorum is won with enough accepted answers, or with all answers. -/
theorem Decision.of_true (h : Decision ids i R F true q) (hout : ∀ j ∉ R.erase i, F j = none) :
    R.card / 2 ≤ votes F Answer.isAccept ∨
      (∀ j ∈ R.erase i, F j ≠ none) ∧ votes F Answer.isReject ≤ votes F Answer.isAccept ∧
        (votes F Answer.isAccept = votes F Answer.isReject →
          ∀ j n, F j = some (.collision n) → n + 1 = R.card → ids i ≤ ids j) := by
  obtain ⟨H, hle, hq⟩ := h.tally
  rcases go_true h.cb h.verdict with hacc | ⟨hall, hfinal⟩
  · refine Or.inl ?_
    rw [← hq.threshold, ← hacc, hq.accepted]
    exact Tally.votes_le hle _
  · obtain rfl := hq.eq_of_complete hall hle hout
    obtain ⟨hrej, htie⟩ := final_true hfinal
    rw [hq.accepted, hq.rejected] at hrej htie
    refine Or.inr ⟨fun j hj => hq.complete hall hj, hrej, ?_⟩
    intro heq j n hj hn
    exact hq.win.mp (htie heq) j n hj (by have := hq.requests; omega)

/-- Two quorums for one change id with the same voters, which have lost no answer, are never both
won. -/
theorem Decision.not_both_true (hq : Decision ids i R F true q) (hr : Decision ids k R G true r)
    (hex : Excludes k R F G) (hex' : Excludes i R G F) (hF : F i = none) (hG : G k = none)
    (hids : ids i < ids k) : False := by
  have hik : i ≠ k := by
    rintro rfl
    exact lt_irrefl _ hids
  have hsum := hex.accepts_add_le hex' hik hF hG
  rcases hq.of_true (hex.outside_erase hF) with hqacc | ⟨hqall, hqle, -⟩ <;>
    rcases hr.of_true (hex'.outside_erase hG) with hracc | ⟨hrall, hrle, hrtie⟩
  · omega
  · have := hex.accepts_le_rejects hrall
    omega
  · have := hex'.accepts_le_rejects hqall
    omega
  · -- all four numbers are equal, so the two have met in a collision, which `k` loses
    have hqr := hex.accepts_le_rejects hrall
    have hrq := hex'.accepts_le_rejects hqall
    have hnotreject : G i ≠ some .reject := fun hrej => by
      have := hex.accepts_lt_rejects hrall hF hrej
      omega
    obtain ⟨n, hn⟩ : ∃ n, G i = some (.collision n) := by
      rcases hGi : G i with - | (- | - | n)
      · exact absurd hGi (hrall i (mem_erase.mpr ⟨hik, hex'.mem⟩))
      · exact absurd hGi hex'.own
      · exact absurd hGi hnotreject
      · exact ⟨n, rfl⟩
    have := hrtie (by omega) i n hn (hex'.number n hn)
    omega

end Quorum

/-- Exactly two nodes `i` and `k` propose, `F` and `G` are all the answers which
they get, and everybody else accepts one of the two. -/
structure Duel (i k : Fin N) (F G : Fin N → Option Answer) : Prop where
  ne : i ≠ k
  left : Excludes k univ F G
  right : Excludes i univ G F
  self_left : F i = none
  self_right : G k = none
  full_left : ∀ j ∈ univ.erase i, F j ≠ none
  full_right : ∀ j ∈ univ.erase k, G j ≠ none
  cover : ∀ j, j ≠ i → j ≠ k → F j = some .accept ∨ G j = some .accept

namespace Duel

theorem accepts_add (h : Duel i k F G) :
    votes F Answer.isAccept + votes G Answer.isAccept + 2 = N := by
  have hle := h.left.accepts_add_le h.right h.ne h.self_left h.self_right
  rw [card_fin] at hle
  have hge := card_le_votes_add_votes (H := F) (G := G) (p := Answer.isAccept)
    (q := Answer.isAccept) (s := {i, k}) ?_
  · rw [card_pair h.ne, Fintype.card_fin] at hge
    omega
  · intro j hj
    simp only [mem_insert, Finset.mem_singleton, not_or] at hj
    simpa using h.cover j hj.1 hj.2

theorem answers_add (h : Duel i k F G) :
    votes F Answer.isAccept + votes F Answer.isReject + votes F Answer.isCollision + 1 = N := by
  have hle := votes_add_votes_le (H := F) (G := F) (p := fun _ => true) (q := fun _ => false)
    (s := {i}) (by intro j _; cases F j <;> simp) (by simp [h.self_left]) (by simp)
  have hge := card_le_votes_add_votes (H := F) (G := F) (p := fun _ => true)
    (q := fun _ => false) (s := {i}) ?_
  · rw [card_singleton, Fintype.card_fin] at hle hge
    have hfalse : votes F (fun _ => false) = 0 := by
      unfold votes
      simp
    rw [Answer.votes_add]
    omega
  · intro j hj
    obtain ⟨a, ha⟩ := Option.ne_none_iff_exists'.mp (h.full_left j (by simpa using hj))
    simp [ha]

theorem other (h : Duel i k F G) : F k = some .reject ∨ ∃ n, F k = some (.collision n) := by
  rcases hF : F k with - | (- | - | n)
  · exact absurd hF (h.full_left k (by simp [h.ne.symm]))
  · exact absurd hF h.left.own
  · exact Or.inl rfl
  · exact Or.inr ⟨n, rfl⟩

theorem eq_of_collision (h : Duel i k F G) {j : Fin N} {n : ℕ}
    (hj : F j = some (.collision n)) : j = k := by
  by_contra hne
  have hji : j ≠ i := by
    rintro rfl
    simp [h.self_left] at hj
  rcases h.cover j hji hne with haccept | haccept
  · simp [haccept] at hj
  · simp [h.right.reject_of_accept h.full_left haccept] at hj

end Duel

namespace Quorum

/-- The proposer with most accepted answers wins. -/
theorem Decision.of_majority (hd : Decision ids i univ F b q) (h : Duel i k F G)
    (hlt : votes G Answer.isAccept < votes F Answer.isAccept) : b := by
  by_contra hb
  obtain rfl : b = false := by simpa using hb
  obtain ⟨H, hle, hq⟩ := hd.tally
  have hN := h.accepts_add
  have hsum := h.answers_add
  have hreq := hq.requests
  have hthreshold := hq.threshold
  rw [card_fin] at hreq hthreshold
  rcases go_false hd.cb (hq.reachable (card_fin N)) hd.verdict with hrej | ⟨hall, hacc, -⟩
  · have hbound := Tally.votes_le hle Answer.isReject
    rw [← hq.rejected] at hbound
    omega
  · obtain rfl := hq.eq_of_complete hall hle (h.left.outside_erase h.self_left)
    have hbounded := hd.bounded
    have haccepted := hq.accepted
    omega

/-- With equally many accepted answers, the proposer with the lower id wins if
the other one has answered with a collision, and nobody wins otherwise. -/
theorem Decision.of_tie (hd : Decision ids i univ F b q) (h : Duel i k F G)
    (hinj : Function.Injective ids) (heq : votes F Answer.isAccept = votes G Answer.isAccept) :
    b ↔ (∃ n, F k = some (.collision n)) ∧ ids i < ids k := by
  have hN := h.accepts_add
  have hsum := h.answers_add
  have hrejects := h.right.accepts_le_rejects h.full_left
  constructor
  · rintro rfl
    rcases hd.of_true (h.left.outside_erase h.self_left) with hacc | ⟨-, hle, htie⟩
    · rw [card_fin] at hacc
      omega
    rcases h.other with hrej | ⟨n, hn⟩
    · have := h.right.accepts_lt_rejects h.full_left h.self_right hrej
      omega
    · refine ⟨⟨n, hn⟩, lt_of_le_of_ne ?_ fun hids => h.ne (hinj hids)⟩
      exact htie (by omega) k n hn (h.left.number n hn)
  · rintro ⟨⟨n, hn⟩, hids⟩
    by_contra hb
    obtain rfl : b = false := by simpa using hb
    obtain ⟨H, hle, hq⟩ := hd.tally
    have hreq := hq.requests
    have hthreshold := hq.threshold
    rw [card_fin] at hreq hthreshold
    have hcollision : 0 < votes F Answer.isCollision :=
      card_pos.mpr ⟨k, by simp [hn, Answer.isCollision]⟩
    rcases go_false hd.cb (hq.reachable (card_fin N)) hd.verdict with hrej | ⟨hall, -, hfinal⟩
    · have hbound := Tally.votes_le hle Answer.isReject
      rw [← hq.rejected] at hbound
      omega
    · obtain rfl := hq.eq_of_complete hall hle (h.left.outside_erase h.self_left)
      have hnumber := h.left.number n hn
      rw [card_fin] at hnumber
      have hwin : q.winCollision = true := by
        refine hq.win.mpr fun j m hj _ => ?_
        rw [h.eq_of_collision hj]
        exact hids.le
      have hdiff : q.diffRequests = 0 := by
        have hbelow : votes H (Answer.isBelow q.requests) = 0 := by
          refine card_eq_zero.mpr (filter_eq_empty_iff.mpr fun j _ => ?_)
          rcases hj : H j with - | (- | - | m) <;> simp [Answer.isBelow]
          have := h.eq_of_collision hj
          subst this
          simp only [hn, Option.some.injEq, Answer.collision.injEq] at hj
          omega
        have habove : votes H (Answer.isAbove q.requests) = 0 := by
          refine card_eq_zero.mpr (filter_eq_empty_iff.mpr fun j _ => ?_)
          rcases hj : H j with - | (- | - | m) <;> simp [Answer.isAbove]
          have := h.eq_of_collision hj
          subst this
          simp only [hn, Option.some.injEq, Answer.collision.injEq] at hj
          omega
        rw [hq.diff, hbelow, habove]
        rfl
      have htie : q.accepted = q.rejected := by
        rw [hq.accepted, hq.rejected]
        omega
      have hmet : q.diffRequests < q.collisions := by
        rw [hdiff, hq.collisions]
        exact_mod_cast hcollision
      have : q.final = true := by
        rw [final, if_neg (by omega), if_pos ⟨hmet, htie⟩]
        exact hwin
      simp [this] at hfinal

end Quorum
end ThingsDB.Changes
