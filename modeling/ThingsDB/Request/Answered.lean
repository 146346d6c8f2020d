import Mathlib.Data.List.Nodup
import ThingsDB.Lib.Transition
import ThingsDB.Request.Stream

/-!
# Every request is answered once

The requests which wait are those in the map of the stream, each under its package id. Each of the
four events which end a request takes it out of the map, so the callback is called once. This does
not hold for a write which fails after its request has ended: the write still refers to the
request, which is not there anymore.
-/

namespace ThingsDB.Request.Stream

open Function List

/-- The condition for an event: no request is made on a closed stream, and a write fails only while
its request waits. -/
def Safe (s : Stream) : Event → Prop
  | .create fail => s.closed = true → fail = some .alloc
  | .response _ => True
  | .timeout _ => True
  | .written r ok => ok = true ∨ (s.mem r).isSome = true
  | .close => True

def answered (s : Stream) : List ℕ := s.calls.map Call.req

structure Inv (s : Stream) : Prop where
  closed : s.closed = true ↔ s.reqmap = none
  null : s.reqmap = none → ∀ r, s.mem r = none
  ordered : ∀ m, s.reqmap = some m → Omap.Ordered m
  entry : ∀ m, s.reqmap = some m → ∀ id r, Omap.get m id = some r ↔ s.mem r = some ⟨id, true⟩
  timer : ∀ r req, s.mem r = some req → req.timer = true
  fresh : ∀ r, s.created ≤ r → s.mem r = none
  mem_answered : ∀ r, r ∈ s.answered ↔ r < s.created ∧ s.mem r = none
  once : s.answered.Nodup

variable {s t : Stream} {m m' : List (ℕ × ℕ)} {id r : ℕ} {status : Status}

theorem inv_create : Inv create where
  closed := by simp [create]
  null := nofun
  ordered := by
    rintro m ⟨⟩
    exact List.Pairwise.nil
  entry := by
    rintro m ⟨⟩ id r
    simp [create, Omap.get]
  timer := nofun
  fresh := fun _ _ => rfl
  mem_answered := by simp [create, answered]
  once := nodup_nil

theorem answered_call : (s.call r status).answered = s.answered ++ [r] := by
  rw [answered, call, map_append]
  rfl

variable {e : Event} {req : Req}

theorem Inv.mem_eq (h : Inv s) (hr : s.mem r = some req) : s.mem r = some ⟨req.pkgId, true⟩ := by
  rw [hr, ← h.timer r req hr]

theorem reqEnd_eq (h : s.mem r = some ⟨id, true⟩) : s.reqEnd r status = some (s.call r status) := by
  rw [reqEnd, h]
  rfl

section

variable (h : Inv s)

include h

theorem Inv.ended (hm : s.reqmap = some m) (hr : s.mem r = some ⟨id, true⟩)
    (hordered : Omap.Ordered m') (hget : ∀ i, Omap.get m' i = if i = id then none else Omap.get m i)
    (status : Status) : Inv { s.call r status with reqmap := some m' } := by
  have hmem : ∀ r', (s.call r status).mem r' = if r' = r then none else s.mem r' := by
    intro r'
    exact update_apply s.mem r none r'
  have hlt : r < s.created := by
    by_contra hge
    rw [h.fresh r (Nat.le_of_not_lt hge)] at hr
    cases hr
  refine ⟨?_, nofun, ?_, ?_, ?_, ?_, ?_, ?_⟩
  · have hclosed := h.closed
    rw [hm] at hclosed
    simpa [call] using hclosed
  · rintro m₁ ⟨⟩
    exact hordered
  · rintro m₁ ⟨⟩ i r'
    simp only [hget, hmem]
    by_cases hi : i = id
    · subst hi
      rw [if_pos rfl]
      by_cases hr' : r' = r
      · simp [hr']
      · rw [if_neg hr', ← h.entry m hm, (h.entry m hm i r).mpr hr]
        simp [Ne.symm hr']
    · rw [if_neg hi, h.entry m hm]
      by_cases hr' : r' = r
      · rw [if_pos hr', hr', hr]
        simp [Ne.symm hi]
      · rw [if_neg hr']
  · intro r' req hr'
    simp only [hmem] at hr'
    split at hr'
    · cases hr'
    · exact h.timer r' req hr'
  · intro r' hr'
    simp only [hmem]
    split
    · rfl
    · exact h.fresh r' hr'
  · intro r'
    have hans : r' ∈ (s.call r status).answered ↔ r' ∈ s.answered ∨ r' = r := by
      rw [answered_call, mem_append, mem_singleton]
    refine hans.trans ?_
    simp only [hmem, h.mem_answered]
    by_cases hr' : r' = r
    · subst hr'
      simp [hr, hlt, call]
    · simp [hr', call]
  · have hnot : r ∉ s.answered := by
      rw [h.mem_answered, hr]
      simp
    have hans : (s.call r status).answered.Nodup := by
      rw [answered_call, nodup_append']
      simpa using ⟨h.once, hnot⟩
    exact hans

theorem Inv.insert (hm : s.reqmap = some m) (hid : Omap.get m id = none)
    (hordered : Omap.Ordered m')
    (hget : ∀ i, Omap.get m' i = if i = id then some s.created else Omap.get m i) (w : List ℕ) :
    Inv { s with
      reqmap := some m'
      mem := update s.mem s.created (some ⟨id, true⟩)
      created := s.created + 1
      writes := w } := by
  have hmem : ∀ r, update s.mem s.created (some ⟨id, true⟩) r =
      if r = s.created then some ⟨id, true⟩ else s.mem r := update_apply _ _ _
  refine ⟨?_, nofun, ?_, ?_, ?_, ?_, ?_, h.once⟩
  · have hclosed := h.closed
    rw [hm] at hclosed
    simpa using hclosed
  · rintro m₁ ⟨⟩
    exact hordered
  · rintro m₁ ⟨⟩ i r
    simp only [hget, hmem]
    by_cases hi : i = id
    · subst hi
      rw [if_pos rfl]
      by_cases hr : r = s.created
      · simp [hr]
      · rw [if_neg hr, ← h.entry m hm, hid]
        simp [Ne.symm hr]
    · rw [if_neg hi, h.entry m hm]
      by_cases hr : r = s.created
      · rw [if_pos hr, hr, h.fresh _ (Nat.le_refl _)]
        simp [Ne.symm hi]
      · rw [if_neg hr]
  · intro r req hr
    simp only [hmem] at hr
    split at hr
    · cases hr
      rfl
    · exact h.timer r req hr
  · intro r hr
    simp only [hmem]
    rw [if_neg (Nat.ne_of_gt hr)]
    exact h.fresh r (Nat.le_of_succ_le hr)
  · intro r
    refine (h.mem_answered r).trans ?_
    simp only [hmem]
    by_cases hr : r = s.created
    · simp [hr]
    · rw [if_neg hr]
      exact and_congr_left fun _ => by omega

theorem Inv.remap (hm : s.reqmap = some m) (hordered : Omap.Ordered m')
    (hget : ∀ i, Omap.get m' i = Omap.get m i) : Inv { s with reqmap := some m' } := by
  refine ⟨?_, nofun, ?_, ?_, h.timer, h.fresh, h.mem_answered, h.once⟩
  · have hclosed := h.closed
    rw [hm] at hclosed
    simpa using hclosed
  · rintro m₁ ⟨⟩
    exact hordered
  · rintro m₁ ⟨⟩ i r
    rw [hget]
    exact h.entry m hm i r

theorem Inv.nextPkgId (n : ℕ) : Inv { s with nextPkgId := n } :=
  ⟨h.closed, h.null, h.ordered, h.entry, h.timer, h.fresh, h.mem_answered, h.once⟩

theorem Inv.writes (w : List ℕ) : Inv { s with writes := w } :=
  ⟨h.closed, h.null, h.ordered, h.entry, h.timer, h.fresh, h.mem_answered, h.once⟩

theorem Inv.reqmap_eq (hclosed : s.closed = false) : ∃ m, s.reqmap = some m := by
  rw [← Option.isSome_iff_exists, Option.isSome_iff_ne_none, Ne, ← h.closed, hclosed]
  exact Bool.false_ne_true

theorem Inv.reqFail (hr : s.mem r = some req) (status : Status) :
    ∃ t, s.reqFail r status = some t ∧ Inv t := by
  have hr := h.mem_eq hr
  have hopen : s.closed = false := by
    rw [Bool.eq_false_iff, Ne, h.closed]
    intro hnull
    rw [h.null hnull] at hr
    cases hr
  obtain ⟨m, hm⟩ := h.reqmap_eq hopen
  have hordered := h.ordered m hm
  refine ⟨_, ?_, h.ended hm hr (hordered.rm req.pkgId) (Omap.get_rm hordered req.pkgId) status⟩
  rw [Stream.reqFail, hr, Option.bind_some, hm, Option.bind_some, reqEnd_eq]
  · rfl
  · exact hr

theorem Inv.onResponse (id : ℕ) : ∃ t, s.onResponse id = some t ∧ Inv t ∧
    (t.calls = s.calls ∨ ∃ r, t.calls = s.calls ++ [⟨r, .success⟩] ∧
      s.mem r = some ⟨id, true⟩ ∧ r ∉ s.answered) := by
  rw [Stream.onResponse]
  by_cases hclosed : s.closed = true
  · rw [if_pos hclosed]
    exact ⟨s, rfl, h, .inl rfl⟩
  rw [if_neg hclosed]
  obtain ⟨m, hm⟩ := h.reqmap_eq (Bool.eq_false_iff.mpr hclosed)
  have hordered := h.ordered m hm
  have hget := Omap.get_rm hordered id
  simp only [hm, Option.bind_some, Omap.rm_snd]
  cases hentry : Omap.get m id with
  | none =>
    exact ⟨_, rfl, h.remap hm (hordered.rm id) (Omap.get_rm_of_none hordered hentry), .inl rfl⟩
  | some r =>
    have hr := (h.entry m hm id r).mp hentry
    refine ⟨_, reqEnd_eq hr, h.ended hm hr (hordered.rm id) hget _, .inr ⟨r, rfl, hr, ?_⟩⟩
    rw [h.mem_answered, hr]
    simp

theorem Inv.cleared (hm : s.reqmap = some m) (id : ℕ) (m' : List (ℕ × ℕ)) :
    ∃ t, (if (Omap.set m id s.created).2 ≠ s.created then
        { s with reqmap := some m' }.reqCancel (Omap.set m id s.created).2
      else some { s with reqmap := some m' }) = some { t with reqmap := some m' } ∧
      t.reqmap = some (Omap.rm m id).1 ∧ t.created = s.created ∧ Inv t := by
  have hordered := h.ordered m hm
  rw [Omap.set_snd]
  cases hentry : Omap.get m id with
  | none =>
    refine ⟨{ s with reqmap := some (Omap.rm m id).1 }, by simp, rfl, rfl, ?_⟩
    exact h.remap hm (hordered.rm id) (Omap.get_rm_of_none hordered hentry)
  | some r =>
    have hr := (h.entry m hm id r).mp hentry
    have hne : r ≠ s.created := by
      rintro rfl
      rw [h.fresh _ (Nat.le_refl _)] at hr
      cases hr
    rw [Option.getD_some, if_pos hne]
    exact ⟨{ s.call r .requestCancel with reqmap := some (Omap.rm m id).1 }, reqEnd_eq hr, rfl, rfl,
      h.ended hm hr (hordered.rm id) (Omap.get_rm hordered id) .requestCancel⟩

theorem Inv.reqSet (hm : s.reqmap = some m) (id : ℕ) (fail : Option Failure) :
    ∃ t, s.reqSet id fail = some t ∧ Inv t := by
  rw [Stream.reqSet, hm, Option.bind_some]
  by_cases hmap : fail = some .map ∧ Omap.get m id = none
  · rw [if_pos hmap]
    exact ⟨s, rfl, h⟩
  rw [if_neg hmap]
  have hordered := h.ordered m hm
  obtain ⟨t, ht, htm, hcreated, hinv⟩ := h.cleared hm id (Omap.set m id s.created).1
  simp only [ht, Option.map_some]
  have hset : ∀ i, Omap.get (Omap.set m id s.created).1 i =
      if i = id then some t.created else Omap.get (Omap.rm m id).1 i := by
    intro i
    rw [Omap.get_set, Omap.get_rm hordered, hcreated]
    by_cases hi : i = id
    · rw [if_pos hi, if_pos hi]
    · rw [if_neg hi, if_neg hi, if_neg hi]
  by_cases hfail : fail = some .timer ∨ fail = some .write
  · rw [if_pos hfail]
    refine ⟨_, rfl, hinv.remap htm ((hordered.set id _).rm id) fun i => ?_⟩
    rw [Omap.get_rm (hordered.set id _), Omap.get_rm hordered, Omap.get_set]
    by_cases hi : i = id
    · rw [if_pos hi, if_pos hi]
    · rw [if_neg hi, if_neg hi, if_neg hi]
  · rw [if_neg hfail, ← hcreated]
    refine ⟨_, rfl, hinv.insert htm ?_ (hordered.set id _) ?_ _⟩
    · rw [Omap.get_rm hordered, if_pos rfl]
    · rw [hcreated]
      rw [hcreated] at hset
      exact hset

theorem Inv.reqCreate {fail : Option Failure}
    (hsafe : s.closed → fail = some .alloc) : ∃ t, s.reqCreate fail = some t ∧ Inv t := by
  rw [Stream.reqCreate]
  by_cases halloc : fail = some .alloc
  · exact ⟨s, if_pos halloc, h⟩
  rw [if_neg halloc]
  obtain ⟨m, hm⟩ := h.reqmap_eq (Bool.eq_false_iff.mpr fun hc => halloc (hsafe hc))
  exact (h.nextPkgId ((s.nextPkgId + 1) % 2 ^ 16)).reqSet hm _ fail

end

theorem cancelAll_eq (s : Stream) (m : List (ℕ × ℕ))
    (hlive : ∀ e ∈ m, s.mem e.2 = some ⟨e.1, true⟩) (hnodup : (m.map Prod.snd).Nodup) :
    s.cancelAll m = some { s with
      mem := fun r => if r ∈ m.map Prod.snd then none else s.mem r
      calls := s.calls ++ m.map fun e => ⟨e.2, .requestCancel⟩ } := by
  induction m generalizing s with
  | nil => simp [cancelAll]
  | cons e m ih =>
    obtain ⟨hnot, hnodup⟩ := nodup_cons.mp hnodup
    rw [cancelAll, reqCancel, reqEnd_eq (hlive e mem_cons_self), Option.bind_some, ih _ _ hnodup]
    · congr 2
      · funext r
        simp only [call, update_apply, map_cons, mem_cons]
        by_cases hr : r = e.2
        · simp [hr]
        · simp only [hr, if_false, false_or]
      · simp [call]
    · intro f hf
      have hne : f.2 ≠ e.2 := fun heq => hnot (heq ▸ mem_map_of_mem hf)
      exact (update_of_ne hne _ _).trans (hlive f (mem_cons_of_mem e hf))

theorem Inv.nodup_reqs (h : Inv s) (hm : s.reqmap = some m) : (m.map Prod.snd).Nodup := by
  have hordered := h.ordered m hm
  rw [nodup_iff_pairwise_ne, pairwise_map]
  refine List.Pairwise.imp_of_mem ?_ hordered
  intro e f he hf hlt heq
  have hme := (h.entry m hm e.1 e.2).mp ((Omap.mem_iff hordered).mp he)
  have hmf := (h.entry m hm f.1 f.2).mp ((Omap.mem_iff hordered).mp hf)
  rw [heq, hmf, Option.some_inj] at hme
  exact Nat.ne_of_gt hlt (congrArg Req.pkgId hme)

theorem Inv.close (h : Inv s) : ∃ t, s.close = some t ∧ Inv t := by
  rw [Stream.close]
  by_cases hclosed : s.closed = true
  · exact ⟨s, if_pos hclosed, h⟩
  rw [if_neg hclosed]
  obtain ⟨m, hm⟩ := h.reqmap_eq (Bool.eq_false_iff.mpr hclosed)
  have hordered := h.ordered m hm
  have hlive : ∀ e ∈ m, s.mem e.2 = some ⟨e.1, true⟩ := fun e he =>
    (h.entry m hm e.1 e.2).mp ((Omap.mem_iff hordered).mp he)
  have hnodup := h.nodup_reqs hm
  have hmem : ∀ r, (if r ∈ m.map Prod.snd then none else s.mem r) = none := by
    intro r
    by_cases hr : r ∈ m.map Prod.snd
    · exact if_pos hr
    rw [if_neg hr]
    by_contra hsome
    obtain ⟨req, hreq⟩ := Option.ne_none_iff_exists'.mp hsome
    have hget := (h.entry m hm req.pkgId r).mpr (h.mem_eq hreq)
    exact hr (mem_map_of_mem ((Omap.mem_iff hordered).mpr hget))
  rw [hm, Option.getD_some, cancelAll_eq s m hlive hnodup, Option.map_some]
  simp only [hmem]
  have hlt : ∀ r ∈ m.map Prod.snd, r < s.created := by
    intro r hr
    obtain ⟨e, he, rfl⟩ := mem_map.mp hr
    by_contra hge
    have hfresh := h.fresh e.2 (Nat.le_of_not_lt hge)
    rw [hlive e he] at hfresh
    cases hfresh
  have hans : (s.calls ++ m.map fun e => (⟨e.2, .requestCancel⟩ : Call)).map Call.req =
      s.answered ++ m.map Prod.snd := by
    rw [map_append, map_map]
    rfl
  refine ⟨_, rfl, ⟨by simp, fun _ _ => rfl, nofun, nofun, nofun, fun _ _ => rfl, fun r => ?_, ?_⟩⟩
  · rw [answered, hans, mem_append, h.mem_answered]
    refine ⟨fun hr => ⟨hr.elim And.left (hlt r), rfl⟩, fun hr => ?_⟩
    by_cases hmap : r ∈ m.map Prod.snd
    · exact .inr hmap
    · have hnone := hmem r
      rw [if_neg hmap] at hnone
      exact .inl ⟨hr.1, hnone⟩
  · rw [answered, hans, nodup_append']
    refine ⟨h.once, hnodup, fun r hr hmap => ?_⟩
    obtain ⟨e, he, rfl⟩ := mem_map.mp hmap
    have hnone := ((h.mem_answered e.2).mp hr).2
    rw [hlive e he] at hnone
    cases hnone

/-- An event which meets the condition is served. -/
theorem Inv.step (h : Inv s) (hposs : s.Possible e) (hsafe : s.Safe e) :
    ∃ t, s.step e = some t ∧ Inv t := by
  cases e with
  | create fail => exact h.reqCreate hsafe
  | response id =>
    obtain ⟨t, ht, hinv, -⟩ := h.onResponse id
    exact ⟨t, ht, hinv⟩
  | timeout r =>
    cases hr : s.mem r with
    | none =>
      rw [Possible, hr] at hposs
      cases hposs
    | some req => exact h.reqFail hr .requestTimeout
  | written r ok =>
    cases ok with
    | true => exact ⟨_, rfl, h.writes _⟩
    | false =>
      obtain ⟨req, hreq⟩ := Option.isSome_iff_exists.mp (hsafe.resolve_left Bool.false_ne_true)
      exact (h.writes (s.writes.erase r)).reqFail hreq .writeUv
  | close => exact h.close

/-- An event which does not meet the condition is undefined. -/
theorem Inv.step_none (h : Inv s) (hsafe : ¬ s.Safe e) : s.step e = none := by
  cases e with
  | create fail =>
    obtain ⟨hclosed, halloc⟩ := Classical.not_imp.mp hsafe
    rw [Stream.step, Stream.reqCreate, if_neg halloc]
    simp only [Stream.reqSet, h.closed.mp hclosed, Option.bind_none]
  | response id => exact absurd trivial hsafe
  | timeout r => exact absurd trivial hsafe
  | written r ok =>
    obtain ⟨hok, hnone⟩ := not_or.mp hsafe
    obtain rfl : ok = false := Bool.eq_false_iff.mpr hok
    have hmem : s.mem r = none := by simpa using hnone
    simp only [Stream.step, reqWriteCb, Stream.reqFail, hmem, Bool.false_eq_true, if_false,
      Option.bind_none]
  | close => exact absurd trivial hsafe

/-- A run is defined as long as its events meet the condition. -/
theorem run_defined_iff (h : Inv s) {es : List Event}
    (hposs : Transition.Along step Possible s es) :
    (Transition.run step s es).isSome ↔ Transition.Along step Safe s es := by
  induction es generalizing s with
  | nil => exact ⟨fun _ => trivial, fun _ => rfl⟩
  | cons e es ih =>
    by_cases hsafe : s.Safe e
    · obtain ⟨t, ht, hinv⟩ := h.step hposs.1 hsafe
      rw [Transition.run, ht, Option.bind_some, ih hinv (hposs.2 t ht)]
      refine ⟨fun hrun => ⟨hsafe, fun u hu => ?_⟩, fun hrun => hrun.2 t ht⟩
      rw [ht] at hu
      cases hu
      exact hrun
    · rw [Transition.run, h.step_none hsafe]
      exact iff_of_false Bool.false_ne_true fun hrun => hsafe hrun.1

/-- In a run without an event which is undefined every callback is called at most once, all of
them are called when the stream is closed, and a response goes to the request which waits for its
package id. -/
theorem answered_exactly_once (es : List Event)
    (hposs : Transition.Along step Possible create es) :
    ((Transition.run step create es).isSome = true ↔ Transition.Along step Safe create es) ∧
    ∀ s, Transition.run step create es = some s →
      s.answered.Nodup ∧ (s.closed = true → ∀ r, r ∈ s.answered ↔ r < s.created) ∧
      ∀ id t, s.onResponse id = some t → t.calls = s.calls ∨
        ∃ r, t.calls = s.calls ++ [⟨r, .success⟩] ∧ s.mem r = some ⟨id, true⟩ ∧
          r ∉ s.answered := by
  refine ⟨run_defined_iff inv_create hposs, fun s hs => ?_⟩
  have hinv : Inv s := by
    refine Transition.run_invariant_along (fun s e t h hposs ht => ?_) inv_create hposs hs
    by_cases hsafe : s.Safe e
    · obtain ⟨u, hu, hinv⟩ := h.step hposs hsafe
      rw [hu] at ht
      cases ht
      exact hinv
    · rw [h.step_none hsafe] at ht
      cases ht
  refine ⟨hinv.once, fun hclosed r => ?_, fun id t ht => ?_⟩
  · rw [hinv.mem_answered]
    exact and_iff_left (hinv.null (hinv.closed.mp hclosed) r)
  · obtain ⟨u, hu, -, hcalls⟩ := hinv.onResponse id
    rw [hu] at ht
    cases ht
    exact hcalls

def fourEnds : List Event :=
  [.create none, .create none, .create none, .create none, .written 0 true, .response 1,
    .timeout 1, .written 2 false, .close]

theorem answered_fourEnds : Transition.Along step Possible create fourEnds ∧
    ∃ s, Transition.run step create fourEnds = some s ∧ s.answered.Nodup ∧
      ∀ r, r ∈ s.answered ↔ r < 4 := by
  have hposs : Transition.Along step Possible create fourEnds := by decide +kernel
  obtain ⟨s, hs, hclosed, hcreated⟩ : ∃ s, Transition.run step create fourEnds = some s ∧
      s.closed = true ∧ s.created = 4 := ⟨_, rfl, rfl, rfl⟩
  obtain ⟨-, hprop⟩ := answered_exactly_once fourEnds hposs
  obtain ⟨hnodup, hall, -⟩ := hprop s hs
  refine ⟨hposs, s, hs, hnodup, fun r => ?_⟩
  rw [hall hclosed, hcreated]

def lateFailure : List Event := [.create none, .timeout 0, .written 0 false]

/-- The write refers to a request which is not there, and a closed stream has no map. -/
theorem late_events_undefined :
    (Transition.Along step Possible create lateFailure ∧
      Transition.run step create lateFailure = none) ∧
    Transition.Along step Possible create [.close, .create none] ∧
      Transition.run step create [.close, .create none] = none :=
  ⟨⟨by decide +kernel, rfl⟩, by decide +kernel, rfl⟩

end ThingsDB.Request.Stream
