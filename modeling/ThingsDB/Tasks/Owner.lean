import ThingsDB.Util.Vec

/-!
# Deleting the tasks of a user

`ti_tasks_del_user` deletes tasks from a vector while it walks over the data of that vector. The
end of the walk is read before, and `vec_swap_remove` moves the last task into the hole, where
the slot behind the shorter vector keeps its value.
-/

namespace ThingsDB.Tasks.Owner

open Util List

structure Vtask where
  id : ℕ
  user : ℕ
  deriving DecidableEq, Repr

instance : Inhabited Vtask := ⟨⟨0, 0⟩⟩

/-- The vector of the tasks of a scope, and the ids of the tasks which are deleted: these are
cleared or destroyed. -/
structure Scope where
  slots : Slots Vtask
  n : ℕ
  gone : List ℕ

namespace Scope

variable (s : Scope)

def tasks : List Vtask := s.slots.read s.n

def swapRemove (i : ℕ) : Scope :=
  { s with slots := s.slots.set i (s.slots (s.n - 1)), n := s.n - 1 }

def idx (id : ℕ) : ℕ := s.tasks.findIdx fun t => t.id = id

def vtaskDel (id : ℕ) : Scope :=
  if s.idx id < s.n then { s.swapRemove (s.idx id) with gone := id :: s.gone } else s

/-- One round of a loop, which fails if the slot has a task which is deleted. -/
def visit (user i : ℕ) : Option Scope :=
  if (s.slots i).id ∈ s.gone then none
  else some (if (s.slots i).user = user then s.vtaskDel (s.slots i).id else s)

/-- `vec_each` for `k` more slots from slot `i` on. -/
def each (user : ℕ) : ℕ → ℕ → Scope → Option Scope
  | 0, _, s => some s
  | k + 1, i, s => (s.visit user i).bind (each user k (i + 1))

/-- `vec_each_rev` for the first `k` slots. -/
def eachRev (user : ℕ) : ℕ → Scope → Option Scope
  | 0, s => some s
  | k + 1, s => (s.visit user k).bind (eachRev user k)

end Scope

/-- `ti_tasks_del_user`, for the scope `@thingsdb` and the collections. -/
def delUser (user : ℕ) (thingsdb : Scope) (collections : List Scope) :
    Option (Scope × List Scope) := do
  let thingsdb ← thingsdb.eachRev user thingsdb.n
  let collections ← collections.mapM fun c => c.each user c.n 0
  return (thingsdb, collections)

variable {rest : List Vtask} {id : ℕ}

namespace Scope

variable {s s₀ : Scope} {user i k : ℕ}

theorem length_tasks (s : Scope) : s.tasks.length = s.n := Slots.length_read _ _

theorem getElem?_tasks (hi : i < s.n) : s.tasks[i]? = some (s.slots i) :=
  Slots.getElem?_read _ hi

theorem tasks_swapRemove (hi : i < s.n) : (s.swapRemove i).tasks = vecSwapRemove s.tasks i := by
  apply ext_getElem?
  intro j
  by_cases hj : j < s.n - 1
  · have hlen := s.length_tasks
    rw [getElem?_tasks (s := s.swapRemove i) hj, getElem?_vecSwapRemove _ _ (by omega) (by omega)]
    by_cases hji : j = i
    · subst hji
      rw [if_pos rfl, hlen, getElem?_tasks (by omega)]
      exact congrArg some (Slots.set_self _ _ _)
    · rw [if_neg hji, getElem?_tasks (by omega)]
      exact congrArg some (Slots.set_of_ne _ _ hji)
  · rw [getElem?_eq_none, getElem?_eq_none]
    · rw [length_vecSwapRemove, length_tasks]
      omega
    · rw [length_tasks]
      exact not_lt.mp hj

theorem idx_le (hi : i < s.n) (h : (s.slots i).id = id) : s.idx id ≤ i := by
  by_contra hlt
  have hlen := s.length_tasks
  have hne := not_of_lt_findIdx (not_le.mp hlt)
  have hget : s.tasks[i] = s.slots i :=
    Option.some.inj ((getElem?_eq_getElem _).symm.trans (getElem?_tasks hi))
  simp [hget, h] at hne

theorem slots_idx (h : s.idx id < s.n) : (s.slots (s.idx id)).id = id := by
  have hlt : s.idx id < s.tasks.length := by rwa [length_tasks]
  have hget := getElem?_tasks h
  rw [getElem?_eq_getElem hlt] at hget
  rw [← Option.some.inj hget]
  exact of_decide_eq_true (findIdx_getElem (w := hlt))

/-- A task is removed, and the others are kept in some order. -/
theorem vtaskDel_spec {t : Vtask} (hperm : s.tasks.Perm (t :: rest))
    (hnodup : (s.tasks.map Vtask.id).Nodup) :
    (s.vtaskDel t.id).tasks.Perm rest ∧ (s.vtaskDel t.id).gone = t.id :: s.gone ∧
      (s.vtaskDel t.id).n + 1 = s.n ∧
      ∀ p, p ≠ s.idx t.id → (s.vtaskDel t.id).slots p = s.slots p := by
  have hlen := s.length_tasks
  have hmem : t ∈ s.tasks := hperm.mem_iff.mpr (mem_cons_self)
  have hlt : s.idx t.id < s.tasks.length :=
    findIdx_lt_length_of_exists ⟨t, hmem, by simp⟩
  have hid : (s.tasks[s.idx t.id]).id = t.id := by
    exact of_decide_eq_true (findIdx_getElem (w := hlt))
  have hget : s.tasks[s.idx t.id] = t :=
    inj_on_of_nodup_map hnodup (getElem_mem hlt) hmem hid
  have hdel : s.vtaskDel t.id = { s.swapRemove (s.idx t.id) with gone := t.id :: s.gone } :=
    if_pos (by omega)
  rw [hdel]
  refine ⟨?_, rfl, ?_, fun p hp => Slots.set_of_ne _ _ hp⟩
  · have htasks := tasks_swapRemove (s := s) (i := s.idx t.id) (by omega)
    have hcons := (getElem_cons_eraseIdx_perm hlt).trans hperm
    rw [hget] at hcons
    exact (htasks ▸ vecSwapRemove_perm _ _ hlt).trans hcons.cons_inv
  · show s.n - 1 + 1 = s.n
    omega

theorem visit_spec (user : ℕ) (hgone : (s.slots i).id ∉ s.gone)
    (hperm : s.tasks.Perm (s.slots i :: rest)) (hnodup : (s.tasks.map Vtask.id).Nodup) :
    ∃ s', s.visit user i = some s' ∧
      s'.tasks.Perm ([s.slots i].filter (fun t => t.user ≠ user) ++ rest) ∧
      (∀ id ∈ s'.gone, id = (s.slots i).id ∨ id ∈ s.gone) ∧
      ∀ p, p ≠ s.idx (s.slots i).id → s'.slots p = s.slots p := by
  refine ⟨_, if_neg hgone, ?_⟩
  split_ifs with huser
  · obtain ⟨htasks, hgone', -, hslots⟩ := vtaskDel_spec hperm hnodup
    refine ⟨by simpa [huser] using htasks, fun id hid => ?_, hslots⟩
    rw [hgone'] at hid
    exact mem_cons.mp hid
  · exact ⟨by simpa [huser] using hperm, fun id hid => .inr hid, fun p _ => rfl⟩

section Loops

variable (hnodup : (s₀.tasks.map Vtask.id).Nodup)
include hnodup

/-- A round when `l₁` are the tasks which have been visited, and `l₂` those which follow. -/
theorem visit_step {l₁ l₂ : List Vtask} (user : ℕ) (h : s₀.tasks.Perm (l₁ ++ s.slots i :: l₂))
    (hgone : ∀ id ∈ s.gone, id ∈ l₁.map Vtask.id)
    (hs : s.tasks.Perm (l₁.filter (fun t => t.user ≠ user) ++ s.slots i :: l₂)) :
    ∃ s', s.visit user i = some s' ∧
      (∀ id ∈ s'.gone, id ∈ (l₁ ++ [s.slots i]).map Vtask.id) ∧
      s'.tasks.Perm ((l₁ ++ [s.slots i]).filter (fun t => t.user ≠ user) ++ l₂) ∧
      (∀ p, p ≠ s.idx (s.slots i).id → s'.slots p = s.slots p) ∧
      (i < s.n → s.idx (s.slots i).id ≤ i) ∧ s.idx (s.slots i).id < s.n := by
  have hall : ((l₁ ++ s.slots i :: l₂).map Vtask.id).Nodup := (h.map _).nodup_iff.mp hnodup
  have hids : (s.tasks.map Vtask.id).Nodup := by
    rw [(hs.map _).nodup_iff]
    exact hall.sublist ((filter_sublist.append (List.Sublist.refl _)).map _)
  have hnot : (s.slots i).id ∉ s.gone := by
    intro hmem
    rw [map_append, map_cons] at hall
    exact (nodup_append.mp hall).2.2 _ (hgone _ hmem) _ mem_cons_self rfl
  have hperm := hs.trans perm_middle
  obtain ⟨s', hvisit, htasks, hgone', hslots⟩ := visit_spec user hnot hperm hids
  have hmem : s.slots i ∈ s.tasks := hperm.mem_iff.mpr mem_cons_self
  have hlt : s.idx (s.slots i).id < s.tasks.length :=
    findIdx_lt_length_of_exists ⟨_, hmem, by simp⟩
  refine ⟨s', hvisit, fun id hid => ?_, ?_, hslots, fun hi => idx_le hi rfl, ?_⟩
  · rw [map_append, mem_append]
    exact (hgone' id hid).elim (fun hid => .inr (by simp [hid])) fun hid => .inl (hgone id hid)
  · rw [filter_append]
    refine htasks.trans ?_
    rw [← append_assoc]
    exact perm_append_comm.append_right _
  · rwa [length_tasks] at hlt

theorem slots_inj {p q : ℕ} (hp : p < s₀.n) (hq : q < s₀.n)
    (h : (s₀.slots p).id = (s₀.slots q).id) : p = q := by
  refine (getElem?_inj (by simpa [length_tasks] using hp) hnodup).mp ?_
  rw [getElem?_map, getElem?_map, getElem?_tasks hp, getElem?_tasks hq]
  exact congrArg some h

omit hnodup in
theorem drop_eq_cons (hi : i < s₀.n) (hslot : s.slots i = s₀.slots i) :
    s₀.tasks.drop i = s.slots i :: s₀.tasks.drop (i + 1) := by
  have hlt : i < s₀.tasks.length := by rwa [length_tasks]
  have hget := getElem?_tasks hi
  rw [getElem?_eq_getElem hlt, ← hslot] at hget
  rw [drop_eq_getElem_cons hlt, Option.some.inj hget]

omit hnodup in
theorem take_eq_concat (hi : i < s₀.n) (hslot : s.slots i = s₀.slots i) :
    s₀.tasks.take (i + 1) = s₀.tasks.take i ++ [s.slots i] := by
  rw [take_add_one, getElem?_tasks hi, hslot]
  rfl

/-- A slot which has not been visited has the task which was there at first. -/
theorem each_spec (k : ℕ) (hk : i + k = s₀.n) (hslots : ∀ p, i ≤ p → s.slots p = s₀.slots p)
    (hgone : ∀ id ∈ s.gone, id ∈ (s₀.tasks.take i).map Vtask.id)
    (hs : s.tasks.Perm ((s₀.tasks.take i).filter (fun t => t.user ≠ user) ++ s₀.tasks.drop i)) :
    ∃ s', each user k i s = some s' ∧ s'.tasks.Perm (s₀.tasks.filter fun t => t.user ≠ user) := by
  induction k generalizing i s with
  | zero =>
    have hlen : s₀.tasks.length ≤ i := by rw [length_tasks]; omega
    rw [take_of_length_le hlen, drop_of_length_le hlen, append_nil] at hs
    exact ⟨s, rfl, hs⟩
  | succ k ih =>
    have hdrop := drop_eq_cons (by omega) (hslots i le_rfl)
    have htake := take_eq_concat (by omega) (hslots i le_rfl)
    have h : s₀.tasks.Perm (s₀.tasks.take i ++ s.slots i :: s₀.tasks.drop (i + 1)) := by
      rw [← hdrop, take_append_drop]
    rw [hdrop] at hs
    obtain ⟨s', hvisit, hgone', htasks, hslots', hidx, hlt⟩ := visit_step hnodup user h hgone hs
    rw [← htake] at hgone' htasks
    -- the hole is not behind the visited slot
    have hhole : s.idx (s.slots i).id ≤ i := by
      by_cases hi : i < s.n
      · exact hidx hi
      · omega
    rw [each, hvisit]
    refine ih (by omega) (fun p hp => ?_) hgone' htasks
    rw [hslots' p (by omega), hslots p (by omega)]

/-- The slots before the visited ones have not been changed. -/
theorem eachRev_spec (k : ℕ) (hk : k ≤ s.n) (hk₀ : k ≤ s₀.n)
    (hslots : ∀ p < k, s.slots p = s₀.slots p)
    (hgone : ∀ id ∈ s.gone, id ∈ ((s₀.tasks.drop k).reverse).map Vtask.id)
    (hs : s.tasks.Perm
      (((s₀.tasks.drop k).reverse).filter (fun t => t.user ≠ user) ++ s₀.tasks.take k)) :
    ∃ s', eachRev user k s = some s' ∧ s'.tasks.Perm (s₀.tasks.filter fun t => t.user ≠ user) := by
  induction k generalizing s with
  | zero =>
    rw [take_zero, drop_zero, append_nil, filter_reverse] at hs
    exact ⟨s, rfl, hs.trans (reverse_perm _)⟩
  | succ k ih =>
    have hslot := hslots k (by omega)
    have hdrop := drop_eq_cons (by omega) hslot
    have htake := take_eq_concat (by omega) hslot
    have hvisited : (s₀.tasks.drop (k + 1)).reverse ++ [s.slots k] = (s₀.tasks.drop k).reverse := by
      rw [hdrop, reverse_cons]
    have h : s₀.tasks.Perm
        ((s₀.tasks.drop (k + 1)).reverse ++ s.slots k :: s₀.tasks.take k) := by
      rw [append_cons, hvisited]
      refine List.Perm.trans ?_ ((reverse_perm _).symm.append_right _)
      exact (List.Perm.of_eq (take_append_drop k _).symm).trans perm_append_comm
    have hs' : s.tasks.Perm (((s₀.tasks.drop (k + 1)).reverse).filter (fun t => t.user ≠ user) ++
        s.slots k :: s₀.tasks.take k) := by
      rw [htake] at hs
      exact hs.trans ((perm_append_singleton _ _).append_left _)
    obtain ⟨s', hvisit, hgone', htasks, hslots', hidx, hlt⟩ := visit_step hnodup user h hgone hs'
    rw [hvisited] at hgone' htasks
    have hlen : s'.n = _ := s'.length_tasks.symm.trans htasks.length_eq
    rw [length_append, length_take, length_tasks] at hlen
    rw [eachRev, hvisit]
    refine ih (by omega) (by omega) (fun p hp => ?_) hgone' htasks
    -- the hole is the visited slot, since no slot before it has the same task
    rw [hslots' p ?_, hslots p (by omega)]
    rintro rfl
    have hid : (s₀.slots (s.idx (s.slots k).id)).id = (s₀.slots k).id := by
      rw [← hslots _ (by omega), slots_idx hlt, hslot]
    exact absurd (slots_inj hnodup (by omega) (by omega) hid) (by omega)

end Loops

structure Valid (s : Scope) : Prop where
  nodup : (s.tasks.map Vtask.id).Nodup
  gone : s.gone = []

theorem Valid.each (h : s.Valid) (user : ℕ) :
    ∃ s', s.each user s.n 0 = some s' ∧ s'.tasks.Perm (s.tasks.filter fun t => t.user ≠ user) :=
  each_spec h.nodup s.n (Nat.zero_add _) (fun _ _ => rfl) (by simp [h.gone]) (by simp)

theorem Valid.eachRev (h : s.Valid) (user : ℕ) :
    ∃ s', s.eachRev user s.n = some s' ∧
      s'.tasks.Perm (s.tasks.filter fun t => t.user ≠ user) := by
  have hlen : s.tasks.length ≤ s.n := s.length_tasks.le
  exact eachRev_spec h.nodup s.n le_rfl le_rfl (fun _ _ => rfl) (by simp [h.gone])
    (by simp [take_of_length_le hlen, drop_of_length_le hlen])

end Scope

/-- No deleted task is read, the tasks of the user are removed from every vector, and every other
task is kept once. -/
theorem delUser_spec (user : ℕ) (thingsdb : Scope) (collections : List Scope)
    (hthingsdb : thingsdb.Valid) (hcollections : ∀ c ∈ collections, c.Valid) :
    ∃ thingsdb' collections', delUser user thingsdb collections = some (thingsdb', collections') ∧
      thingsdb'.tasks.Perm (thingsdb.tasks.filter fun t => t.user ≠ user) ∧
      List.Forall₂ (fun c c' => c'.tasks.Perm (c.tasks.filter fun t => t.user ≠ user))
        collections collections' := by
  obtain ⟨thingsdb', hrev, hperm⟩ := hthingsdb.eachRev user
  obtain ⟨collections', hmap, hforall⟩ : ∃ collections',
      collections.mapM (fun c => c.each user c.n 0) = some collections' ∧
        List.Forall₂ (fun c c' => c'.tasks.Perm (c.tasks.filter fun t => t.user ≠ user))
          collections collections' := by
    clear hrev hperm hthingsdb
    induction collections with
    | nil => exact ⟨[], rfl, .nil⟩
    | cons c collections ih =>
      obtain ⟨hc, hrest⟩ := List.forall_mem_cons.mp hcollections
      obtain ⟨c', heach, hperm⟩ := hc.each user
      obtain ⟨rest, hmap, hforall⟩ := ih hrest
      exact ⟨c' :: rest, by simp [List.mapM_cons, heach, hmap], .cons hperm hforall⟩
  exact ⟨thingsdb', collections', by simp [delUser, hrev, hmap], hperm, hforall⟩

/-- The first and the last of three tasks are of user 1: the last one is moved to the first slot,
and is found in the third slot. -/
theorem delUser_three :
    ∃ thingsdb collections,
      delUser 1 ⟨.ofList [], 0, []⟩ [⟨.ofList [⟨1, 1⟩, ⟨2, 7⟩, ⟨3, 1⟩], 3, []⟩] =
        some (thingsdb, collections) ∧ collections.map Scope.tasks = [[⟨2, 7⟩]] := by
  obtain ⟨thingsdb, collections, hdel, -, hforall⟩ := delUser_spec 1 ⟨.ofList [], 0, []⟩
    [⟨.ofList [⟨1, 1⟩, ⟨2, 7⟩, ⟨3, 1⟩], 3, []⟩] ⟨by decide, rfl⟩ (by
      intro c hc
      rw [List.mem_singleton.mp hc]
      exact ⟨by decide, rfl⟩)
  refine ⟨thingsdb, collections, hdel, ?_⟩
  cases hforall with
  | cons hperm hnil =>
    cases hnil
    rw [List.map_singleton, List.perm_singleton.mp hperm]
    rfl

end ThingsDB.Tasks.Owner
