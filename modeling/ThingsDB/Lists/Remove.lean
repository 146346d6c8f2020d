import ThingsDB.Lists.Replica

/-!
# Remove

`do__f_remove_list` with a closure and a limit. The indexes are collected from the front or
from the back, and the elements are then removed from the highest index on, each one in the
place of its index in the vector which is returned.
-/

namespace ThingsDB.Lists

open List

/-- What is in the vector with the indexes: an index, or the element which was removed. -/
inductive Entry where
  | idx (i : ℕ)
  | val (v : Val)

/-- The last loop of `do__f_remove_list` over the first `k` entries, from the last one on. It is
none if an index is not in the list. -/
def removeLoop : ℕ → List Val → List Entry → Option (List Val × List Entry)
  | 0, vec, out => some (vec, out)
  | k + 1, vec, out =>
    match out[k]? with
    | some (.idx i) => vec[i]?.bind fun v => removeLoop k (vec.eraseIdx i) (out.set k (.val v))
    | _ => none

/-- The indexes of the elements for which the closure is true. -/
def selected (closure : Val → ℕ → Bool) (vec : List Val) : List ℕ :=
  (vec.zipIdx.filter fun x => closure x.1 x.2).map Prod.snd

/-- The indexes to remove: the first ones, or the last ones with a negative limit. -/
def chosen (closure : Val → ℕ → Bool) (limit : Option ℤ) (vec : List Val) : List ℕ :=
  match limit with
  | none => selected closure vec
  | some limit =>
    if 0 ≤ limit then (selected closure vec).take limit.toNat
    else (selected closure vec).drop ((selected closure vec).length - limit.natAbs)

def kept (vec : List Val) (idxs : List ℕ) : List Val :=
  (vec.zipIdx.filter fun x => x.2 ∉ idxs).map Prod.fst

def taken (vec : List Val) (idxs : List ℕ) : List Val := idxs.filterMap fun idx => vec[idx]?

def Ascending (vec : List Val) (idxs : List ℕ) : Prop :=
  idxs.Pairwise (· < ·) ∧ ∀ i ∈ idxs, i < vec.length

variable {vec : List Val} {idxs : List ℕ} {closure : Val → ℕ → Bool} {x : Val × ℕ} {i : ℕ}

theorem Ascending.init (h : Ascending vec (idxs ++ [i])) :
    i < vec.length ∧ (∀ j ∈ idxs, j < i) ∧ Ascending (vec.eraseIdx i) idxs := by
  obtain ⟨hpair, hlt⟩ := h
  rw [pairwise_append] at hpair
  have hi : i < vec.length := hlt i (by simp)
  have hbelow : ∀ j ∈ idxs, j < i := fun j hj => hpair.2.2 j hj i (mem_singleton_self i)
  refine ⟨hi, hbelow, hpair.1, fun j hj => ?_⟩
  have := hbelow j hj
  rw [length_eraseIdx_of_lt hi]
  omega

theorem taken_eraseIdx (h : ∀ j ∈ idxs, j < i) : taken (vec.eraseIdx i) idxs = taken vec idxs :=
  filterMap_congr fun j hj => getElem?_eraseIdx_of_lt (h j hj)

theorem removeLoop_eq (h : Ascending vec idxs) (rest : List Entry) :
    removeLoop idxs.length vec (idxs.map .idx ++ rest) =
      some (removeIdxs vec idxs.reverse, (taken vec idxs).map .val ++ rest) := by
  induction idxs using reverseRecOn generalizing vec rest with
  | nil => rfl
  | append_singleton idxs i ih =>
    obtain ⟨hi, hbelow, hinit⟩ := h.init
    have hget : ((idxs ++ [i]).map Entry.idx ++ rest)[idxs.length]? = some (.idx i) := by
      simp
    have hset : ((idxs ++ [i]).map Entry.idx ++ rest).set idxs.length (.val vec[i]) =
        idxs.map .idx ++ .val vec[i] :: rest := by
      simp
    have htaken : taken vec (idxs ++ [i]) = taken (vec.eraseIdx i) idxs ++ [vec[i]] := by
      rw [taken_eraseIdx hbelow]
      simp [taken, hi]
    rw [length_append, length_singleton, removeLoop, hget]
    simp only [getElem?_eq_getElem hi, Option.bind_some, hset, ih hinit, htaken]
    simp [removeIdxs]

theorem le_snd_of_mem_zipIdx {n : ℕ} (h : x ∈ vec.zipIdx n) : n ≤ x.2 := by
  obtain ⟨v, i⟩ := x
  exact (mem_zipIdx h).1

theorem snd_lt_of_mem_zipIdx (h : x ∈ vec.zipIdx) : x.2 < vec.length := by
  obtain ⟨v, i⟩ := x
  have := (mem_zipIdx h).2.1
  omega

theorem kept_append {a b : List Val} (h : ∀ i ∈ idxs, i < a.length) :
    kept (a ++ b) idxs = kept a idxs ++ b := by
  have hb : (b.zipIdx (0 + a.length)).filter (fun x => x.2 ∉ idxs) = b.zipIdx (0 + a.length) := by
    rw [filter_eq_self]
    intro x hx
    have hle := le_snd_of_mem_zipIdx hx
    refine decide_eq_true fun hmem => ?_
    have := h x.2 hmem
    omega
  rw [kept, zipIdx_append, filter_append, map_append, hb, zipIdx_map_fst, kept]

theorem kept_concat {a b : List Val} (v : Val) (h : ∀ i ∈ idxs, i < a.length) :
    kept (a ++ v :: b) (idxs ++ [a.length]) = kept a idxs ++ b := by
  have hv : kept (a ++ [v]) (idxs ++ [a.length]) = kept a idxs := by
    have ha : a.zipIdx.filter (fun x => x.2 ∉ idxs ++ [a.length]) =
        a.zipIdx.filter (fun x => x.2 ∉ idxs) := by
      refine filter_congr fun x hx => ?_
      have := snd_lt_of_mem_zipIdx hx
      simp [this.ne]
    rw [kept, zipIdx_append, filter_append, ha]
    simp [kept]
  rw [append_cons, kept_append, hv]
  intro i hi
  rcases mem_append.mp hi with hi | hi
  · have := h i hi
    simp only [length_append]
    omega
  · simp [mem_singleton.mp hi]

/-- What stays when the elements are removed from the highest index on. -/
theorem removeIdxs_eq (h : Ascending vec idxs) : removeIdxs vec idxs.reverse = kept vec idxs := by
  induction idxs using reverseRecOn generalizing vec with
  | nil => simp [removeIdxs, kept]
  | append_singleton idxs i ih =>
    obtain ⟨hi, hbelow, hinit⟩ := h.init
    have hlen : (vec.take i).length = i := by simp; omega
    have hbelow' : ∀ j ∈ idxs, j < (vec.take i).length := by rwa [hlen]
    have hvec : vec = vec.take i ++ vec[i] :: vec.drop (i + 1) := by simp
    calc removeIdxs vec (idxs ++ [i]).reverse
        = removeIdxs (vec.eraseIdx i) idxs.reverse := by simp [removeIdxs]
      _ = kept (vec.take i ++ vec.drop (i + 1)) idxs := by
          rw [ih hinit, eraseIdx_eq_take_drop_succ]
      _ = kept (vec.take i) idxs ++ vec.drop (i + 1) := kept_append hbelow'
      _ = kept (vec.take i ++ vec[i] :: vec.drop (i + 1)) (idxs ++ [(vec.take i).length]) :=
          (kept_concat _ hbelow').symm
      _ = kept vec (idxs ++ [i]) := by rw [hlen, ← hvec]

/-! ## The indexes -/

theorem ascending_selected (closure : Val → ℕ → Bool) (vec : List Val) :
    Ascending vec (selected closure vec) := by
  have hsub : (selected closure vec).Sublist (List.range vec.length) := by
    have hmap := filter_sublist (l := vec.zipIdx) (p := fun x => closure x.1 x.2)
    have hrange : vec.zipIdx.map Prod.snd = List.range vec.length := by
      simp [zipIdx_map_snd, range_eq_range']
    rw [← hrange]
    exact hmap.map Prod.snd
  exact ⟨List.Pairwise.sublist hsub pairwise_lt_range,
    fun i hi => mem_range.mp (hsub.subset hi)⟩

theorem ascending_chosen (closure : Val → ℕ → Bool) (limit : Option ℤ) (vec : List Val) :
    Ascending vec (chosen closure limit vec) := by
  obtain ⟨hpair, hlt⟩ := ascending_selected closure vec
  have hsub : (chosen closure limit vec).Sublist (selected closure vec) := by
    unfold chosen
    split
    · exact .refl _
    · split_ifs
      · exact take_sublist _ _
      · exact drop_sublist _ _
  exact ⟨hpair.sublist hsub, fun i hi => hlt i (hsub.subset hi)⟩

/-- The loop stops at the limit. -/
theorem selectLoop_eq (closure : Val → ℕ → Bool) (limit : ℕ) (rest : List (Val × ℕ))
    (found : List ℕ) (h : found.length ≤ limit) :
    selectLoop (fun v i => .ok (closure v i)) limit rest found =
      .ok (found ++
        ((rest.filter fun x => closure x.1 x.2).map Prod.snd).take (limit - found.length)) := by
  induction rest generalizing found with
  | nil => simp [selectLoop]
  | cons x rest ih =>
    obtain ⟨v, i⟩ := x
    rw [selectLoop]
    by_cases hfull : (found.length : ℤ) = limit
    · have hzero : limit - found.length = 0 := by omega
      rw [if_pos hfull, hzero]
      simp
    · rw [if_neg hfull]
      dsimp only
      cases hc : closure v i with
      | false =>
        rw [ih _ (by simpa using h)]
        simp [hc]
      | true =>
        have hlen : (found ++ [i]).length ≤ limit := by
          simp only [length_append, length_singleton]
          omega
        obtain ⟨k, hk⟩ : ∃ k, limit - found.length = k + 1 := ⟨limit - found.length - 1, by omega⟩
        have hrest : limit - (found.length + 1) = k := by omega
        rw [if_pos rfl, ih _ hlen]
        simp [hc, hk, hrest]

theorem length_selected_le (closure : Val → ℕ → Bool) (vec : List Val) :
    (selected closure vec).length ≤ vec.length := by
  rw [selected, length_map]
  exact (length_filter_le _ _).trans_eq length_zipIdx

theorem selectLoop_front (closure : Val → ℕ → Bool) (limit : ℕ) (vec : List Val) :
    selectLoop (fun v i => .ok (closure v i)) limit vec.zipIdx [] =
      .ok ((selected closure vec).take limit) := by
  rw [selectLoop_eq closure limit _ _ (Nat.zero_le _)]
  rfl

theorem selectLoop_back (closure : Val → ℕ → Bool) (limit : ℕ) (vec : List Val) :
    (selectLoop (fun v i => .ok (closure v i)) limit vec.zipIdx.reverse []).map reverse =
      .ok ((selected closure vec).drop ((selected closure vec).length - limit)) := by
  rw [selectLoop_eq closure limit _ _ (Nat.zero_le _), filter_reverse, map_reverse,
    length_nil, Nat.sub_zero, take_reverse]
  simp [Except.map, selected]

/-- The number of elements has 32 bits, so that the largest limit is none. -/
theorem selectIdxs_eq (closure : Val → ℕ → Bool) (limit : Int64)
    (hn : vec.length < 2 ^ 32) : selectIdxs (fun v i => .ok (closure v i)) limit vec =
      .ok (chosen closure (some limit.toInt) vec) := by
  have hle := length_selected_le closure vec
  have hpos : 0 ≤ limit ↔ 0 ≤ limit.toInt := Int64.le_iff_toInt_le
  simp only [selectIdxs, chosen, hpos]
  split_ifs with h hmin
  · rw [← Int.toNat_of_nonneg h, selectLoop_front]
    simp
  · have hmax : Int64.maxValue.toInt = ((2 ^ 63 - 1 : ℕ) : ℤ) := rfl
    have hall : (selected closure vec).length - limit.toInt.natAbs = 0 := by
      rw [hmin, show Int64.minValue.toInt.natAbs = 2 ^ 63 from rfl]
      omega
    rw [hmax, selectLoop_back, hall, Nat.sub_eq_zero_of_le (by omega)]
  · rw [Int.abs_eq_natAbs, selectLoop_back]

theorem chosen_none (closure : Val → ℕ → Bool) (hn : vec.length < 2 ^ 32) :
    chosen closure (some Int64.maxValue.toInt) vec = chosen closure none vec := by
  have hle := length_selected_le closure vec
  have hmax : Int64.maxValue.toInt = ((2 ^ 63 - 1 : ℕ) : ℤ) := rfl
  simp only [chosen]
  rw [hmax, if_pos (by omega), Int.toNat_natCast, take_of_length_le (by omega)]

/-- What a call of `remove` does which removes the elements at the indexes. -/
structure Removed (E : Env) (kind : ℕ → Kind) (spec : Spec) (l : Varr) (idxs : List ℕ)
    (o : Outcome) : Prop where
  vec : o.varr.vec = kept l.vec idxs
  rval : o.rval = .ok (.arr ⟨false, idxs ≠ [], idxs ≠ []⟩ (taken l.vec idxs))
  /-- The loop which removes them while the list gets shorter. -/
  loop : removeLoop idxs.length l.vec (idxs.map .idx) =
    some (kept l.vec idxs, (taken l.vec idxs).map .val)
  task : o.task = if idxs = [] then none else some (.arrRemove idxs.reverse)
  /-- `ctask__arr_remove` on a copy of the list. -/
  copy : ∀ r : Varr, r.vec = l.vec → r.flags.tuple = false →
    ctaskRun E kind spec r (.arrRemove idxs.reverse) = some { r with vec := kept l.vec idxs }

/-- `do__f_remove_list` removes the first or the last elements for which the closure is true, up
to the limit, and a copy of the list is the same after the task. -/
theorem remove_list_exact (E : Env) (kind : ℕ → Kind) (spec : Spec) (l : Varr)
    (hn : l.vec.length < 2 ^ 32) (closure : Val → ℕ → Bool) (limit : Option Int64) :
    Removed E kind spec l (chosen closure (limit.map Int64.toInt) l.vec)
      (remove E kind l (fun v i => .ok (closure v i)) (limit.map fun i => .ok (.int i))) := by
  have hidxs := ascending_chosen closure (limit.map Int64.toInt) l.vec
  have hvec := removeIdxs_eq hidxs
  obtain ⟨i, harg, hi⟩ : ∃ i : Int64,
      (limit.map fun i => (.ok (.int i) : Arg)).elim (.ok Int64.maxValue)
        (argInt E kind "remove" (docSee "data-types/list/remove") 2) = .ok i ∧
      chosen closure (some i.toInt) l.vec = chosen closure (limit.map Int64.toInt) l.vec := by
    cases limit with
    | none => exact ⟨_, rfl, chosen_none closure hn⟩
    | some i => exact ⟨i, rfl, rfl⟩
  have hsel := selectIdxs_eq closure i hn
  rw [hi] at hsel
  unfold remove
  simp only [harg, hsel, hvec]
  exact {
    vec := rfl
    rval := rfl
    loop := by simpa [hvec] using removeLoop_eq hidxs []
    task := rfl
    copy := fun r hr htuple => by simp [ctaskRun, htuple, hr, hvec] }

/-- The last two elements. -/
theorem remove_list_last_two :
    (remove default (fun _ => .instance 0) ⟨⟨false, false, false⟩, [.int 1, .int 2, .int 3, .int 4]⟩
      (fun v _ => .ok (v.asBool (fun _ => 0) fun _ => 0)) (some (.ok (.int (-2))))).varr.vec =
        [.int 1, .int 2] :=
  (remove_list_exact default (fun _ => .instance 0) .any
    ⟨⟨false, false, false⟩, [.int 1, .int 2, .int 3, .int 4]⟩ (by decide)
      (fun v _ => v.asBool (fun _ => 0) fun _ => 0) (some (-2))).vec

end ThingsDB.Lists
