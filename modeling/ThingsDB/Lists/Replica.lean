import ThingsDB.Lists.Accept
import ThingsDB.Lists.Ops

/-!
# Lists on other nodes

The tasks as `ctask` runs them on a copy of the list, and when the result is the list
of the node which made the change. A value is packed and read again on the other node, where an
array with a set in it is refused.
-/

namespace ThingsDB.Lists

open Util List

inductive Op where
  | push (args : List Arg)
  | extend (args : List Arg)
  | unshift (args : List Arg)
  | pop (args : List Arg)
  | shift (args : List Arg)
  | splice (args : List Arg)
  | arrayAss (idx : Arg) (opr : Option OprToken) (val : Arg)
  | sliceAss (start stop step : Option Arg) (opr : Option OprToken) (rhs : Rhs)
  | remove (closure : Val → ℕ → Except Ex Bool) (limit : Option Arg)
  | fill (args : List Arg)
  | clear (args : List Arg)

/-- `val__push` -/
def valPush (flags : ArrFlags) : Val → Option (ArrFlags × Val)
  | .set _ | .future _ | .module _ => none
  | v => some (toArr flags v)

mutual

/-- `ti_val_from_vup_e` for what was packed for a value: a name is read as a string, and the values
of an array are put in a new one. -/
def decodeVal : Val → Option Val
  | .arr _ vec => (decodeVec ⟨false, false, false⟩ vec).map fun r => .arr r.1 r.2
  | .name d => some (.str d)
  | v => some v

def decodeVec (flags : ArrFlags) : List Val → Option (ArrFlags × List Val)
  | [] => some (flags, [])
  | v :: vec => do
    let v ← decodeVal v
    let r ← valPush flags v
    let rest ← decodeVec r.1 vec
    some (rest.1, r.2 :: rest.2)

end

section Model

variable (E : Env) (kind : ℕ → Kind) (spec : Spec)

/-- The result is `none` when an operation on integers, or a slice of the list itself, is not
defined. -/
def exec (l : Varr) : Op → Option Outcome
  | .push args => some (push E kind spec l args)
  | .extend args => some (extend E kind spec l args)
  | .unshift args => some (unshift E kind spec l args)
  | .pop args => some (pop l args)
  | .shift args => some (shift l args)
  | .splice args => splice E kind spec l args
  | .arrayAss idx opr val => arrayAss E kind spec l idx opr val
  | .sliceAss start stop step opr rhs => sliceAss E kind l start stop step opr rhs
  | .remove closure limit => some (remove E kind l closure limit)
  | .fill args => some (fill E kind spec l args)
  | .clear args => some (clear l args)

def ctaskSplice (l : Varr) (i c : ℕ) (vals : List Val) : Option Varr :=
  if l.vec.length < c then none
  else do
    let n := vals.length
    let data := (Slots.ofList l.vec).memmove (i + n) (i + c) (l.vec.length - i - c)
    let vals ← vals.mapM decodeVal
    match appendLoop E kind spec (vals.map .ok) { l with vec := l.vec.take i } with
    | (some _, _) => none
    | (none, l') =>
      some { l' with vec := (data.write i (l'.vec.drop i)).read (l.vec.length + n - c) }

/-- `ctask__fill`, which does not fail if the value is refused. -/
def ctaskFill (l : Varr) (v : Val) : Option Varr :=
  (decodeVal v).map fun v => (varrFill E kind spec l v).toOption.getD l

/-- The part of `ti_ctask_run` which is about lists. -/
def ctaskRun (l : Varr) (task : Task) : Option Varr :=
  if l.flags.tuple then none
  else
    match task with
    | .splice i c vals => ctaskSplice E kind spec l i c vals
    | .fill v => ctaskFill E kind spec l v
    | .arrRemove idxs => some { l with vec := removeIdxs l.vec idxs }
    | .arrClear => some { l with vec := [] }

end Model

def Same (vec vec' : List Val) : Prop := vec.map Val.strip = vec'.map Val.strip

/-- The task gives the list of the outcome on a copy of it, and there is one if the list
has changed. -/
def Replays (E : Env) (kind : ℕ → Kind) (spec : Spec) (l r : Varr) (o : Outcome) : Prop :=
  match o.task with
  | none => Same l.vec o.varr.vec
  | some task => ∃ r', ctaskRun E kind spec r task = some r' ∧ Same r'.vec o.varr.vec

/-- The value can be in an array, and so can what is in it at any depth. -/
def Sendable (v : Val) : Prop := Elem v ∧ (decodeVal v).isSome = true

variable {E : Env} {kind : ℕ → Kind} {spec : Spec} {flags : ArrFlags} {l r : Varr} {v w : Val}
variable {vals vec vec' : List Val} {x : ArrFlags × Val}

theorem valPush_cases (h : valPush flags v = some x) : Elem v ∧ x = toArr flags v := by
  cases v with
  | set | future | module => cases h
  | _ => exact ⟨by simp [Elem, Val.tp], (Option.some.inj h).symm⟩

mutual

/-- A value is the same after it was sent, up to its representation. -/
theorem strip_decodeVal (v q : Val) (h : decodeVal v = some q) : q.strip = v.strip := by
  cases v with
  | arr flags vec =>
    obtain ⟨x, hx, rfl⟩ := Option.map_eq_some_iff.mp h
    rw [Val.strip, Val.strip, stripAll_decodeVec vec _ x hx]
  | _ => exact Option.some.inj h ▸ rfl

theorem stripAll_decodeVec (vec : List Val) (flags : ArrFlags) (x : ArrFlags × List Val)
    (h : decodeVec flags vec = some x) : Val.stripAll x.2 = Val.stripAll vec := by
  cases vec with
  | nil => exact Option.some.inj h ▸ rfl
  | cons v vec =>
    obtain ⟨q, hq, h⟩ := Option.bind_eq_some_iff.mp h
    obtain ⟨y, hy, h⟩ := Option.bind_eq_some_iff.mp h
    obtain ⟨rest, hrest, h⟩ := Option.bind_eq_some_iff.mp h
    obtain rfl := Option.some.inj h
    obtain ⟨helem, rfl⟩ := valPush_cases hy
    rw [Val.stripAll, Val.stripAll, strip_toArr helem, strip_decodeVal v q hq,
      stripAll_decodeVec vec _ rest hrest]

end

/-- What `ti_val_varr_prepare` gives can be in the list, also on another node. -/
theorem prepare_elem (hset : spec.base ≠ .set)
    (h : prepare E kind spec flags v = .ok x) : Elem x.2 ∧ Accepts E kind spec x.2 := by
  by_cases hany : spec = .any
  · subst hany
    have hacc : Accepts E kind .any x.2 := .inl (.inr trivial)
    rcases prepare_cases h with ⟨-, rfl⟩ | ⟨hs, -, -⟩
    · exact ⟨elem_toArr, hacc⟩
    · simp [Val.isSpec] at hs
  · have hacc : Accepts E kind spec v := (prepare_isOk _).mp ⟨x, h⟩
    have helem := elem_of_accepts hset hany hacc
    rcases prepare_cases h with ⟨-, rfl⟩ | ⟨-, -, rfl⟩
    · exact ⟨elem_toArr, (accepts_congr (strip_toArr helem)).mpr hacc⟩
    · exact ⟨helem, hacc⟩

theorem strip_prepare (helem : Elem v)
    (h : prepare E kind spec flags v = .ok x) : x.2.strip = v.strip := by
  rcases prepare_cases h with ⟨-, rfl⟩ | ⟨-, -, rfl⟩
  · exact strip_toArr helem
  · rfl

variable (E kind) in
theorem appendLoop_vec (hset : spec.base ≠ .set) (args : List Arg) : ∀ l : Varr,
    ∃ new, (appendLoop E kind spec args l).2.vec = l.vec ++ new ∧
      (∀ v ∈ new, Elem v ∧ Accepts E kind spec v) ∧
      ((appendLoop E kind spec args l).1 = none → new.length = args.length) := by
  induction args with
  | nil =>
    intro l
    exact ⟨[], by simp [appendLoop]⟩
  | cons arg args ih =>
    intro l
    cases arg with
    | error e => exact ⟨[], by simp [appendLoop]⟩
    | ok v =>
      cases hp : prepare E kind spec l.flags v with
      | error e => exact ⟨[], by simp [appendLoop, varrAppend, hp, Except.map]⟩
      | ok x =>
        obtain ⟨new, hvec, hnew, hlen⟩ := ih ⟨x.1, l.vec ++ [x.2]⟩
        simp only [appendLoop, varrAppend, hp, Except.map]
        refine ⟨x.2 :: new, by simp [hvec], ?_, fun h => by simp [hlen h]⟩
        intro w hw
        rcases mem_cons.mp hw with rfl | hw
        · exact prepare_elem hset hp
        · exact hnew w hw

variable (E kind spec) in
/-- The loop of `unshift` is the one of `push` in front of the elements which are there. -/
theorem insertLoop_append (args : List Arg) : ∀ (l : Varr) (rest : List Val),
    insertLoop E kind spec args l.vec.length { l with vec := l.vec ++ rest } =
      (appendLoop E kind spec args l).map id fun r => { r with vec := r.vec ++ rest } := by
  induction args with
  | nil => exact fun _ _ => rfl
  | cons arg args ih =>
    intro l rest
    cases arg with
    | error e => rfl
    | ok v =>
      cases hp : prepare E kind spec l.flags v with
      | error e => simp [insertLoop, appendLoop, varrInsert, varrAppend, hp, Except.map]
      | ok x =>
        have hvec : (l.vec ++ rest).insertIdx l.vec.length x.2 = l.vec ++ [x.2] ++ rest := by
          simp [insertIdx_eq_append]
        simp only [insertLoop, appendLoop, varrInsert, varrAppend, hp, Except.map, hvec, ← ih,
          length_append, length_singleton]

theorem insertLoop_zero (args : List Arg) (l : Varr) : insertLoop E kind spec args 0 l =
    (appendLoop E kind spec args { l with vec := [] }).map id fun r =>
      { r with vec := r.vec ++ l.vec } :=
  insertLoop_append E kind spec args { l with vec := [] } l.vec

/-- A value is put in the list of another node if it can be sent and is accepted there. -/
theorem received_iff (hset : spec.base ≠ .set) (flags : ArrFlags) :
    (∃ q x, decodeVal v = some q ∧ prepare E kind spec flags q = .ok x ∧ x.2.strip = v.strip) ↔
      Sendable v ∧ Accepts E kind spec v := by
  constructor
  · rintro ⟨q, x, hq, hx, hstrip⟩
    obtain ⟨helem, hacc⟩ := prepare_elem hset hx
    exact ⟨⟨(elem_congr hstrip).mp helem, Option.isSome_of_eq_some hq⟩,
      (accepts_congr hstrip).mp hacc⟩
  · rintro ⟨⟨helem, hsome⟩, hacc⟩
    obtain ⟨q, hq⟩ := Option.isSome_iff_exists.mp hsome
    have hstrip := strip_decodeVal v q hq
    obtain ⟨x, hx⟩ := (prepare_isOk flags).mpr ((accepts_congr hstrip).mpr hacc)
    exact ⟨q, x, hq, hx, (strip_prepare ((elem_congr hstrip).mpr helem) hx).trans hstrip⟩

theorem same_cons : Same (v :: vec) (w :: vec') ↔ v.strip = w.strip ∧ Same vec vec' := by
  simp [Same]

theorem receivedAll_iff (hset : spec.base ≠ .set) (l : Varr) :
    (∃ qs l' new, vals.mapM decodeVal = some qs ∧
      appendLoop E kind spec (qs.map .ok) l = (none, l') ∧ l'.vec = l.vec ++ new ∧
        Same new vals) ↔ ∀ v ∈ vals, Sendable v ∧ Accepts E kind spec v := by
  induction vals generalizing l with
  | nil =>
    refine iff_of_true ⟨[], l, [], rfl, rfl, by simp, rfl⟩ (by simp)
  | cons v vals ih =>
    rw [forall_mem_cons, ← received_iff hset l.flags]
    constructor
    · rintro ⟨qs, l', new, hqs, hloop, hvec, hsame⟩
      rw [mapM_cons] at hqs
      obtain ⟨q, hq, hqs⟩ := Option.bind_eq_some_iff.mp hqs
      obtain ⟨qs', hqs', hqs⟩ := Option.bind_eq_some_iff.mp hqs
      obtain rfl := Option.some.inj hqs
      simp only [map_cons, appendLoop, varrAppend] at hloop
      cases hp : prepare E kind spec l.flags q with
      | error e => simp [hp, Except.map] at hloop
      | ok x =>
        simp only [hp, Except.map] at hloop
        obtain ⟨new', hvec', -⟩ := appendLoop_vec E kind hset (qs'.map .ok) ⟨x.1, l.vec ++ [x.2]⟩
        rw [hloop] at hvec'
        have hnew : new = x.2 :: new' := by
          rw [hvec, append_assoc] at hvec'
          exact append_cancel_left hvec'
        rw [hnew, same_cons] at hsame
        exact ⟨⟨q, x, hq, hp, hsame.1⟩, (ih ⟨x.1, l.vec ++ [x.2]⟩).mp
          ⟨qs', l', new', hqs', hloop, hvec', hsame.2⟩⟩
    · rintro ⟨⟨q, x, hq, hp, hstrip⟩, hall⟩
      obtain ⟨qs, l', new, hqs, hloop, hvec, hsame⟩ := (ih ⟨x.1, l.vec ++ [x.2]⟩).mpr hall
      refine ⟨q :: qs, l', x.2 :: new, ?_, ?_, by simp [hvec], same_cons.mpr ⟨hstrip, hsame⟩⟩
      · rw [mapM_cons, hq, hqs]
        rfl
      · simp only [map_cons, appendLoop, varrAppend, hp, Except.map, hloop]

theorem Same.take (h : Same vec vec') (i : ℕ) : Same (vec.take i) (vec'.take i) := by
  simpa [Same, map_take] using congrArg (List.take i) h

theorem Same.drop (h : Same vec vec') (i : ℕ) : Same (vec.drop i) (vec'.drop i) := by
  simpa [Same, map_drop] using congrArg (List.drop i) h

theorem Same.append {new new' : List Val} (h : Same vec vec') (h' : Same new new') :
    Same (vec ++ new) (vec' ++ new') := by
  simp only [Same, map_append] at *
  rw [h, h']

theorem Same.length_eq (h : Same vec vec') : vec.length = vec'.length := by
  simpa using congrArg List.length h

theorem length_mapM {f : Val → Option Val} {qs : List Val} (h : vals.mapM f = some qs) :
    qs.length = vals.length := by
  induction vals generalizing qs with
  | nil => exact Option.some.inj h ▸ rfl
  | cons v vals ih =>
    rw [mapM_cons] at h
    obtain ⟨q, -, h⟩ := Option.bind_eq_some_iff.mp h
    obtain ⟨qs', hqs', h⟩ := Option.bind_eq_some_iff.mp h
    exact Option.some.inj h ▸ congrArg Nat.succ (ih hqs')

/-- Elements are replaced on both nodes when the new ones can be sent and the copy accepts them. -/
theorem replays_splice {o : Outcome} {i c : ℕ} (hset : spec.base ≠ .set)
    (hr : Same r.vec l.vec) (hlist : r.flags.tuple = false) (hic : i + c ≤ l.vec.length)
    (htask : o.task = some (.splice i c vals))
    (hvec : o.varr.vec = l.vec.take i ++ vals ++ l.vec.drop (i + c)) :
    Replays E kind spec l r o ↔ ∀ v ∈ o.sent, Sendable v ∧ Accepts E kind spec v := by
  have hlen := hr.length_eq
  have hc : ¬ r.vec.length < c := by omega
  have htake : (r.vec.take i).length = i := by simp; omega
  rw [Outcome.sent, htask, Option.elim_some, Task.vals,
    ← receivedAll_iff hset ⟨r.flags, r.vec.take i⟩]
  simp only [Replays, htask, ctaskRun, hlist, Bool.false_eq_true, if_false, ctaskSplice, hc]
  -- the slots of the copy after the new values were written
  have hread : ∀ {new : List Val}, new.length = vals.length →
      (((Slots.ofList r.vec).memmove (i + vals.length) (i + c) (r.vec.length - i - c)).write i
        new).read (r.vec.length + vals.length - c) = r.vec.take i ++ new ++ r.vec.drop (i + c) := by
    intro new hnew
    rw [← hnew]
    exact Slots.read_replace new (by omega)
  have hdrop : ∀ new, (r.vec.take i ++ new).drop i = new := by
    intro new
    have hd : (r.vec.take i ++ new).drop (r.vec.take i).length = new := drop_left
    rwa [htake] at hd
  constructor
  · rintro ⟨r', hr', hsame⟩
    obtain ⟨qs, hqs, hr'⟩ := Option.bind_eq_some_iff.mp hr'
    obtain ⟨new, hnew, -, hcount⟩ := appendLoop_vec E kind hset (qs.map .ok) ⟨r.flags, r.vec.take i⟩
    cases ha : appendLoop E kind spec (qs.map .ok) ⟨r.flags, r.vec.take i⟩ with
    | mk err l' =>
      rw [ha] at hnew hr' hcount
      cases err with
      | some e => cases hr'
      | none =>
        have hnl : new.length = vals.length := by
          rw [hcount rfl, length_map, length_mapM hqs]
        obtain rfl := Option.some.inj hr'
        replace hnew : l'.vec = r.vec.take i ++ new := hnew
        refine ⟨qs, l', new, hqs, ha, hnew, ?_⟩
        simp only [hnew, hdrop, hread hnl, hvec, Same, map_append] at hsame
        have hhead : ((r.vec.take i).map Val.strip).length =
            ((l.vec.take i).map Val.strip).length := by simp [hlen]
        rw [append_assoc, append_assoc] at hsame
        exact (append_inj (append_inj hsame hhead).2 (by simpa using hnl)).1
  · rintro ⟨qs, l', new, hqs, hloop, hnew, hsame⟩
    refine ⟨_, by rw [hqs, Option.bind_eq_bind, Option.bind_some, hloop], ?_⟩
    simp only [hnew, hdrop, hread hsame.length_eq, hvec]
    exact ((hr.take i).append hsame).append (hr.drop (i + c))

/-- The values were accepted by the node which made the change. -/
theorem replays_checked {o : Outcome} {i c : ℕ} (hset : spec.base ≠ .set)
    (hr : Same r.vec l.vec) (hlist : r.flags.tuple = false) (hic : i + c ≤ l.vec.length)
    (htask : o.task = some (.splice i c vals))
    (hvec : o.varr.vec = l.vec.take i ++ vals ++ l.vec.drop (i + c))
    (hacc : ∀ v ∈ vals, Accepts E kind spec v) :
    Replays E kind spec l r o ↔ ∀ v ∈ o.sent, Sendable v := by
  rw [replays_splice hset hr hlist hic htask hvec, Outcome.sent, htask]
  exact forall₂_congr fun v hv => and_iff_left (hacc v hv)

end ThingsDB.Lists
