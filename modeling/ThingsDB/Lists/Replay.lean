import ThingsDB.Lists.Replica

/-!
# Functions on lists, on other nodes

The functions put only values in a list which passed the checks a copy makes once
more, so that their tasks give the same list if the values can be sent.
-/

namespace ThingsDB.Lists

open Util List

variable {E : Env} {kind : ℕ → Kind} {spec : Spec} {l r : Varr}

theorem replays_none {o : Outcome} (htask : o.task = none) (hvec : o.varr.vec = l.vec) :
    Replays E kind spec l r o ↔ ∀ v ∈ o.sent, Sendable v :=
  iff_of_true (by simp [Replays, htask, hvec, Same]) (by simp [Outcome.sent, htask])

theorem replays_fail (e : Ex) :
    Replays E kind spec l r (fail l e) ↔ ∀ v ∈ (fail l e).sent, Sendable v :=
  replays_none rfl rfl

section Checked

variable (hset : spec.base ≠ .set) (hr : Same r.vec l.vec) (hlist : r.flags.tuple = false)

include hset hr hlist

/-- `push` and `extend` put all or nothing at the end. -/
theorem replays_append (args : List Arg) {o : Outcome}
    (herr : (appendLoop E kind spec args l).1 ≠ none → o.task = none ∧
      o.varr.vec = (appendLoop E kind spec args l).2.vec.take l.vec.length)
    (hok : (appendLoop E kind spec args l).1 = none →
      o.varr.vec = (appendLoop E kind spec args l).2.vec ∧
      (o.task = some (addSplice (appendLoop E kind spec args l).2.vec l.vec.length 0 args.length) ∨
        args.length = 0 ∧ o.task = none)) :
    Replays E kind spec l r o ↔ ∀ v ∈ o.sent, Sendable v := by
  obtain ⟨new, hvec, hnew, hlen⟩ := appendLoop_vec E kind hset args l
  by_cases hnone : (appendLoop E kind spec args l).1 = none
  · have hl := hlen hnone
    obtain ⟨ho, htask | ⟨h0, htask⟩⟩ := hok hnone
    · have hsplice : o.task = some (.splice l.vec.length 0 new) := by
        rw [htask, addSplice, hvec, ← hl]
        simp
      exact replays_checked hset hr hlist (by simp) hsplice (by rw [ho, hvec]; simp)
        fun v hv => (hnew v hv).2
    · have hnil : new = [] := eq_nil_of_length_eq_zero (by omega)
      exact replays_none htask (by rw [ho, hvec, hnil, append_nil])
  · obtain ⟨htask, ho⟩ := herr hnone
    exact replays_none htask (by rw [ho, hvec, take_left])

theorem replays_push (args : List Arg) :
    Replays E kind spec l r (push E kind spec l args) ↔
      ∀ v ∈ (push E kind spec l args).sent, Sendable v := by
  unfold push
  cases hn : nargsMin "push" (docSee "data-types/list/push") 1 args.length with
  | some e => exact replays_fail e
  | none =>
    apply replays_append hset hr hlist args
    · intro h
      cases ha : appendLoop E kind spec args l with
      | mk err l' => cases err <;> simp_all
    · intro h
      cases ha : appendLoop E kind spec args l with
      | mk err l' => cases err <;> simp_all

theorem replays_extend (args : List Arg) :
    Replays E kind spec l r (extend E kind spec l args) ↔
      ∀ v ∈ (extend E kind spec l args).sent, Sendable v := by
  unfold extend
  split
  next flags source =>
    apply replays_append hset hr hlist (source.map .ok)
    · intro h
      cases ha : appendLoop E kind spec (source.map .ok) l with
      | mk err l' => cases err <;> simp_all
    · intro h
      cases ha : appendLoop E kind spec (source.map .ok) l with
      | mk err l' =>
        cases err with
        | some e => simp [ha] at h
        | none => by_cases h0 : source.length = 0 <;> simp [h0]
  all_goals exact replays_fail _

theorem replays_unshift (args : List Arg) :
    Replays E kind spec l r (unshift E kind spec l args) ↔
      ∀ v ∈ (unshift E kind spec l args).sent, Sendable v := by
  unfold unshift
  cases hn : nargsMin "unshift" (docSee "data-types/list/unshift") 1 args.length with
  | some e => exact replays_fail e
  | none =>
    obtain ⟨new, hvec, hnew, hlen⟩ := appendLoop_vec E kind hset args { l with vec := [] }
    rw [insertLoop_zero]
    cases ha : appendLoop E kind spec args { l with vec := [] } with
    | mk err l' =>
      simp only [ha, nil_append, Prod.map, id] at hvec hlen ⊢
      cases err with
      | some e =>
        apply replays_none rfl
        simp [hvec]
      | none =>
        have hl := hlen rfl
        refine replays_checked (i := 0) (c := 0) hset hr hlist (Nat.zero_le _) ?_ ?_
          fun v hv => (hnew v hv).2
        · simp [addSplice, hvec, ← hl]
        · simp [hvec]

end Checked

section Removed

variable (hset : spec.base ≠ .set) (hr : Same r.vec l.vec) (hlist : r.flags.tuple = false)

include hset hr hlist

theorem replays_pop (args : List Arg) : Replays E kind spec l r (pop l args) ↔
    ∀ v ∈ (pop l args).sent, Sendable v := by
  unfold pop
  cases args with
  | cons a args => exact replays_fail _
  | nil =>
    cases hlast : l.vec.getLast? with
    | none => exact replays_fail _
    | some v =>
      have hpos : 0 < l.vec.length := by
        apply length_pos_iff.mpr
        rintro h
        simp [h] at hlast
      refine replays_checked (i := l.vec.length - 1) (c := 1) hset hr hlist (by omega) rfl ?_
        (by simp)
      simp [dropLast_eq_take, Nat.sub_add_cancel hpos]

theorem replays_shift (args : List Arg) : Replays E kind spec l r (shift l args) ↔
    ∀ v ∈ (shift l args).sent, Sendable v := by
  unfold shift
  cases args with
  | cons a args => exact replays_fail _
  | nil =>
    cases hvec : l.vec with
    | nil => exact replays_fail _
    | cons v vec =>
      refine replays_checked (i := 0) (c := 1) hset hr hlist (by simp [hvec]) rfl ?_ (by simp)
      simp [hvec]

omit hset hr in
theorem replays_clear (args : List Arg) : Replays E kind spec l r (clear l args) ↔
    ∀ v ∈ (clear l args).sent, Sendable v := by
  unfold clear
  cases args with
  | cons a args => exact replays_fail _
  | nil =>
    by_cases h0 : l.vec.length = 0
    · have hnil := eq_nil_of_length_eq_zero h0
      exact replays_none (by simp [h0]) hnil.symm
    · exact iff_of_true (by simp [Replays, h0, ctaskRun, hlist, Same])
        (by simp [Outcome.sent, h0, Task.vals])

omit hset hr hlist in
theorem Same.removeIdxs {vec vec' : List Val} (h : Same vec vec') (idxs : List ℕ) :
    Same (removeIdxs vec idxs) (removeIdxs vec' idxs) := by
  induction idxs generalizing vec vec' with
  | nil => exact h
  | cons idx idxs ih =>
    apply ih
    simp only [Same, ← eraseIdx_map]
    rw [h]

omit hset in
theorem replays_remove (closure : Val → ℕ → Except Ex Bool) (limit : Option Arg) :
    Replays E kind spec l r (remove E kind l closure limit) ↔
      ∀ v ∈ (remove E kind l closure limit).sent, Sendable v := by
  unfold remove
  cases limit.elim (.ok Int64.maxValue)
      (argInt E kind "remove" (docSee "data-types/list/remove") 2) with
  | error e => exact replays_fail e
  | ok limit =>
    dsimp only
    cases selectIdxs closure limit l.vec with
    | error e => exact replays_fail e
    | ok idxs =>
      by_cases h0 : idxs = []
      · subst h0
        exact replays_none rfl rfl
      · refine iff_of_true ?_ (by simp [Outcome.sent, h0, Task.vals])
        simp only [Replays, h0, if_false, ctaskRun, hlist, Bool.false_eq_true]
        exact ⟨_, rfl, hr.removeIdxs idxs.reverse⟩

end Removed

section Assigned

variable (hset : spec.base ≠ .set) (hr : Same r.vec l.vec) (hlist : r.flags.tuple = false)

include hset hr hlist

theorem replays_filled {o : Outcome} {x : Val} (hne : l.vec ≠ [])
    (htask : o.task = some (.fill x)) (hvec : o.varr.vec = l.vec.map fun _ => x)
    (hacc : Accepts E kind spec x) : Replays E kind spec l r o ↔ ∀ v ∈ o.sent, Sendable v := by
  have hlen := hr.length_eq
  obtain ⟨w, vec, hl⟩ := exists_cons_of_ne_nil hne
  have hone := (received_iff hset r.flags).trans (and_iff_left hacc)
  rw [Outcome.sent, htask, Option.elim_some, Task.vals, forall_mem_singleton, ← hone]
  simp only [Replays, htask, ctaskRun, hlist, Bool.false_eq_true, if_false, ctaskFill, hvec]
  constructor
  · rintro ⟨r', hr', hsame⟩
    obtain ⟨q, hq, rfl⟩ := Option.map_eq_some_iff.mp hr'
    -- the value was accepted before it was sent
    have hq' := (accepts_congr (strip_decodeVal _ _ hq)).mpr hacc
    obtain ⟨y, hy⟩ := (prepare_isOk r.flags).mpr hq'
    refine ⟨q, y, hq, hy, ?_⟩
    simp only [varrFill, hy, Except.map, Except.toOption, Option.getD_some, Same, map_const',
      hlen, hl, length_cons, replicate_succ, map_cons] at hsame
    exact (cons.inj hsame).1
  · rintro ⟨q, y, hq, hy, hstrip⟩
    simp [hq, varrFill, hy, Except.map, Except.toOption, Same, hstrip, map_const', hlen]

theorem replays_fill (args : List Arg) :
    Replays E kind spec l r (fill E kind spec l args) ↔
      ∀ v ∈ (fill E kind spec l args).sent, Sendable v := by
  unfold fill
  split
  next v =>
    cases hp : prepare E kind spec l.flags v with
    | error e =>
      simp only [varrFill, hp, Except.map]
      exact replays_fail e
    | ok x =>
      simp only [varrFill, hp, Except.map]
      cases hvec : l.vec with
      | nil => exact replays_none rfl hvec.symm
      | cons w vec =>
        have hne : l.vec ≠ [] := by simp [hvec]
        exact replays_filled hset hr hlist hne rfl (by simp [hvec]) (prepare_elem hset hp).2
  all_goals exact replays_fail _

/-- One element is replaced, by one which may not have been checked. -/
theorem replays_assigned {i : ℕ} (hi : i < l.vec.length) (flags : ArrFlags) (x : Val) :
    (assigned ⟨flags, l.vec.set i x⟩ i x).sent = [x] ∧
      (Replays E kind spec l r (assigned ⟨flags, l.vec.set i x⟩ i x) ↔
        ∀ v ∈ (assigned ⟨flags, l.vec.set i x⟩ i x).sent, Sendable v ∧ Accepts E kind spec v) := by
  have heq := set_eq_take_cons_drop x hi
  have hsplice : (assigned ⟨flags, l.vec.set i x⟩ i x).task = some (.splice i 1 [x]) := by
    have htake : (l.vec.take i).length = i := by simp; omega
    simp [assigned, addSplice, heq, htake]
  refine ⟨?_, replays_splice hset hr hlist hi hsplice (by simp [assigned, heq])⟩
  rw [Outcome.sent, hsplice]
  rfl

end Assigned

end ThingsDB.Lists
