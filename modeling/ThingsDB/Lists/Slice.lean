import ThingsDB.Lists.Sound

/-!
# Reading slices

`ti_varr_from_slice`, `ti_str_from_slice` and `ti_bytes_from_slice`, and the slices of Python which
they are meant to read. Where the start is past the stop by less than a step, one element is read
instead of none. With a negative step the start is bounded by the number of elements instead of the
last index, and indices below the first element are taken for the first one.
-/

namespace ThingsDB.Lists

open List

variable {α : Type}

/-- `ti_str_from_slice` and `ti_bytes_from_slice` -/
def rawFromSlice (xs : List α) (start stop step : ℤ) : Option (List α) :=
  let n := sliceCount start stop step
  if n ≤ 0 then some [] else sliceLoop xs step n.toNat start

inductive SliceArg where
  | absent
  | nil
  | int (i : Int64)
  deriving DecidableEq

namespace SliceArg

def toArg : SliceArg → Option Arg
  | .absent => none
  | .nil => some (.ok .nil)
  | .int i => some (.ok (.int i))

def value : SliceArg → Option ℤ
  | .absent | .nil => none
  | .int i => some i.toInt

theorem sliceIndex_toArg (E : Env) (kind : ℕ → Kind) (a : SliceArg) :
    sliceIndex E kind a.toArg = .ok a.value := by
  cases a <;> rfl

end SliceArg

/-- `index__slice_arr`, `index__slice_str` and `index__slice_bin` -/
def indexSlice (E : Env) (kind : ℕ → Kind)
    (fromSlice : List α → ℤ → ℤ → ℤ → Option (List α)) (xs : List α)
    (start stop step : SliceArg) : Except Ex (Option (List α)) :=
  (readSliceIndices E kind xs.length start.toArg stop.toArg step.toArg).map fun (i, j, k) =>
    fromSlice xs i j k

section Python

def fromEnd (n i : ℤ) : ℤ := if i < 0 then i + n else i

def clamp (lo hi i : ℤ) : ℤ := max lo (min hi i)

/-- The first index, and the one before which or after which the indices end. -/
def pyBounds (n : ℤ) (start stop : Option ℤ) (step : ℤ) : ℤ × ℤ :=
  if 0 < step then
    ((start.map fun i => clamp 0 n (fromEnd n i)).getD 0,
      (stop.map fun i => clamp 0 n (fromEnd n i)).getD n)
  else
    ((start.map fun i => clamp (-1) (n - 1) (fromEnd n i)).getD (n - 1),
      (stop.map fun i => clamp (-1) (n - 1) (fromEnd n i)).getD (-1))

def pyIndices (n : ℕ) (start stop : Option ℤ) (step : ℤ) : List ℤ :=
  let b := pyBounds n start stop step
  ((List.range n).map fun k : ℕ => b.1 + k * step).filter fun i =>
    if 0 < step then i < b.2 else b.2 < i

def pySlice (xs : List α) (start stop : Option ℤ) (step : ℤ) : List α :=
  (pyIndices xs.length start stop step).filterMap fun i => xs[i.toNat]?

end Python

variable {xs : List α} {a b f i p : ℤ} {start stop : Option ℤ} {k m : ℕ}

section Steps

/-- How many multiples of `s` from zero on are below `d`. -/
def steps (d s : ℤ) : ℕ := ((d + s - 1) / s).toNat

variable {d s : ℤ}

section

variable (hs : 0 < s)

include hs

theorem lt_steps_iff (k : ℕ) : k < steps d s ↔ k * s < d := by
  rw [steps, Int.lt_toNat, Int.lt_iff_add_one_le, Int.le_ediv_iff_mul_le hs]
  constructor <;> intro h <;> linarith

theorem steps_of_nonpos (hd : d ≤ 0) : steps d s = 0 := by
  by_contra hne
  have hpos := (lt_steps_iff hs 0).mp (Nat.pos_of_ne_zero hne)
  simp only [Nat.cast_zero, zero_mul] at hpos
  omega

theorem steps_pos (hd : 0 < d) : 0 < steps d s := by
  rw [lt_steps_iff hs, Nat.cast_zero, zero_mul]
  exact hd

theorem eq_steps_iff : m = steps d s ↔ ∀ k : ℕ, k < m ↔ k * s < d := by
  constructor
  · rintro rfl k
    exact lt_steps_iff hs k
  · intro h
    apply Nat.le_antisymm
    · by_contra hlt
      have hk := (h _).mp (Nat.lt_of_not_le hlt)
      exact absurd ((lt_steps_iff hs _).mpr hk) (Nat.lt_irrefl _)
    · by_contra hlt
      have hk := (lt_steps_iff hs _).mp (Nat.lt_of_not_le hlt)
      exact absurd ((h _).mpr hk) (Nat.lt_irrefl _)

theorem steps_succ_eq_iff (hd : 0 ≤ d) : steps d s = steps (d + 1) s ↔ ¬ s ∣ d := by
  rw [eq_steps_iff hs]
  constructor
  · rintro h ⟨q, rfl⟩
    have hq : 0 ≤ q := by
      by_contra hneg
      nlinarith
    have hlt := (h q.toNat).mpr (by rw [Int.toNat_of_nonneg hq]; nlinarith)
    rw [lt_steps_iff hs, Int.toNat_of_nonneg hq, mul_comm] at hlt
    exact lt_irrefl _ hlt
  · intro hdvd k
    rw [lt_steps_iff hs]
    refine ⟨fun h => by omega, fun h => ?_⟩
    have hne : (k : ℤ) * s ≠ d := fun heq => hdvd ⟨k, by rw [← heq, mul_comm]⟩
    omega

theorem count_of_nonneg (hd : 0 ≤ d) : (count d s).toNat = steps d s := by
  rw [eq_steps_iff hs]
  intro k
  rw [count, Int.tdiv_eq_ediv_of_nonneg hd, Int.tmod_eq_emod_of_nonneg hd, Int.lt_toNat]
  have hmod := Int.emod_nonneg d hs.ne'
  have hlt := Int.emod_lt_of_pos d hs
  have hdiv := Int.mul_ediv_add_emod d s
  by_cases hzero : d % s = 0
  · rw [if_pos hzero, add_zero]
    constructor
    · intro h
      nlinarith
    · intro h
      by_contra hge
      nlinarith
  · rw [if_neg hzero]
    constructor
    · intro h
      have hle : (k : ℤ) ≤ d / s := by omega
      have hrest : 0 < d % s := by omega
      nlinarith
    · intro h
      by_contra hge
      have hle : d / s + 1 ≤ (k : ℤ) := by omega
      nlinarith

theorem count_of_neg (hd : d < 0) : (count d s).toNat = if -s < d then 1 else 0 := by
  have htdiv : d.tdiv s = -((-d) / s) := by
    rw [← Int.tdiv_eq_ediv_of_nonneg (by omega), Int.neg_tdiv, neg_neg]
  have htmod : d.tmod s = -((-d) % s) := by
    rw [← Int.tmod_eq_emod_of_nonneg (by omega), Int.neg_tmod, neg_neg]
  rw [count, htdiv, htmod]
  by_cases hlt : -s < d
  · rw [if_pos hlt, Int.ediv_eq_zero_of_lt (by omega) (by omega),
      Int.emod_eq_of_lt (by omega) (by omega), if_neg (by omega)]
    rfl
  · have hone : 1 ≤ -d / s := by
      rw [Int.le_ediv_iff_mul_le hs]
      omega
    rw [if_neg hlt, Int.toNat_eq_zero]
    split <;> omega

end

theorem count_neg_step (d step : ℤ) : count d (-step) = count (-d) step := by
  rw [count, count, Int.tdiv_neg, Int.neg_tdiv, Int.tmod_neg, Int.neg_tmod]
  simp only [neg_eq_zero]

end Steps

section Loop

variable {xs : List α} {step : ℤ}

def reads (xs : List α) (step i : ℤ) (k : ℕ) : List α :=
  (List.range k).filterMap fun j : ℕ => xs[(i + j * step).toNat]?

theorem reads_succ (xs : List α) (step i : ℤ) (k : ℕ) :
    reads xs step i (k + 1) = xs[i.toNat]?.toList ++ reads xs step (i + step) k := by
  have hfirst : i + ((0 : ℕ) : ℤ) * step = i := by simp
  have hshift : ((fun j : ℕ => xs[(i + j * step).toNat]?) ∘ Nat.succ) =
      fun j : ℕ => xs[(i + step + j * step).toNat]? := by
    funext j
    have hidx : i + ((j + 1 : ℕ) : ℤ) * step = i + step + j * step := by
      push_cast
      ring
    simp only [Function.comp_apply, Nat.succ_eq_add_one, hidx]
  rw [reads, range_succ_eq_map, filterMap_cons, filterMap_map, hfirst, hshift, reads]
  cases xs[i.toNat]? <;> rfl

theorem sliceLoop_eq (h : ∀ j : ℕ, j < k → 0 ≤ i + j * step ∧ i + j * step < xs.length) :
    sliceLoop xs step k i = some (reads xs step i k) ∧ (reads xs step i k).length = k := by
  induction k generalizing i with
  | zero => exact ⟨rfl, rfl⟩
  | succ k ih =>
    have hfirst : 0 ≤ i ∧ i < xs.length := by simpa using h 0 (Nat.succ_pos k)
    have hrest : ∀ j : ℕ, j < k → 0 ≤ i + step + j * step ∧ i + step + j * step < xs.length := by
      intro j hj
      have hidx : i + ((j + 1 : ℕ) : ℤ) * step = i + step + j * step := by
        push_cast
        ring
      rw [← hidx]
      exact h (j + 1) (Nat.succ_lt_succ hj)
    obtain ⟨hloop, hlen⟩ := ih hrest
    obtain ⟨x, hx⟩ : ∃ x, xs[i.toNat]? = some x :=
      ⟨_, getElem?_eq_getElem (by omega)⟩
    rw [sliceLoop, if_pos hfirst, hx, Option.bind_some, hloop, reads_succ, hx]
    exact ⟨rfl, by simp [hlen]⟩

theorem length_sliceLoop {ys : List α} (h : sliceLoop xs step k i = some ys) : ys.length = k := by
  induction k generalizing i ys with
  | zero =>
    cases h
    rfl
  | succ k ih =>
    rw [sliceLoop] at h
    split at h
    · obtain ⟨x, -, hrest⟩ := Option.bind_eq_some_iff.mp h
      obtain ⟨zs, hzs, rfl⟩ := Option.map_eq_some_iff.mp hrest
      rw [length_cons, ih hzs]
    · cases h

theorem sliceLoop_none (hk : 0 < k) (h : ¬ (0 ≤ i ∧ i < xs.length)) :
    sliceLoop xs step k i = none := by
  obtain ⟨k, rfl⟩ := Nat.exists_eq_add_of_lt hk
  rw [Nat.zero_add, sliceLoop, if_neg h]

end Loop

section Bounds

variable {n : ℤ}

theorem sliceStart_eq (hn : 0 ≤ n) (i : ℤ) : sliceStart n i = clamp 0 n (fromEnd n i) := by
  unfold sliceStart clamp fromEnd
  split_ifs <;> omega

theorem sliceStop_eq (hn : 0 ≤ n) (i : ℤ) : sliceStop n i = clamp 0 n (fromEnd n i) := by
  unfold sliceStop clamp fromEnd
  split_ifs <;> omega

theorem filter_lt_range {n : ℕ} (h : m ≤ n) : (List.range n).filter (· < m) = List.range m := by
  obtain ⟨k, rfl⟩ := Nat.exists_eq_add_of_le h
  rw [range_add, filter_append, filter_eq_self.mpr, filter_eq_nil_iff.mpr, append_nil]
  · simp
  · simp

/-- The indices of a slice are those of as many steps as fit between its bounds. -/
theorem pySlice_eq {step : ℤ}
    (hbounds : pyBounds xs.length start stop step = (f, p)) (hm : m ≤ xs.length)
    (h : ∀ k : ℕ, k < m ↔ if 0 < step then f + k * step < p else p < f + k * step) :
    pySlice xs start stop step = reads xs step f m := by
  rw [pySlice, pyIndices, hbounds, filter_map, filterMap_map, reads, ← filter_lt_range hm]
  congr 1
  refine filter_congr fun k _ => ?_
  rw [Function.comp_apply, Bool.eq_iff_iff, decide_eq_true_iff, h k]
  split <;> simp

theorem pySlice_of_pos {step : ℤ} (hstep : 0 < step)
    (hbounds : pyBounds xs.length start stop step = (f, p)) (hf : 0 ≤ f) (hp : p ≤ xs.length) :
    pySlice xs start stop step = reads xs step f (steps (p - f) step) := by
  refine pySlice_eq hbounds ?_ fun k => ?_
  · by_contra hlt
    have hk := (lt_steps_iff hstep xs.length).mp (Nat.lt_of_not_le hlt)
    nlinarith
  · rw [lt_steps_iff hstep, if_pos hstep]
    omega

theorem pySlice_of_neg {s : ℤ} (hs : 0 < s)
    (hbounds : pyBounds xs.length start stop (-s) = (f, p)) (hf : f < xs.length) (hp : -1 ≤ p) :
    pySlice xs start stop (-s) = reads xs (-s) f (steps (f - p) s) := by
  refine pySlice_eq hbounds ?_ fun k => ?_
  · by_contra hlt
    have hk := (lt_steps_iff hs xs.length).mp (Nat.lt_of_not_le hlt)
    nlinarith
  · rw [lt_steps_iff hs, if_neg (by omega), mul_neg]
    omega

/-- The condition on the indices of a slice. With a positive step the start is not past the stop by
less than a step. With a negative step, for an index `a` of the start: if it is past the last
element then so is the stop, if it is before the first element then no element follows for the
stop, and for a start in between the stop is not before the first element where this one is to be
read, and not past the start by less than a step. -/
def SliceOk (n : ℤ) (start stop : Option ℤ) (step : ℤ) : Prop :=
  let stop := stop.map (fromEnd n)
  if 0 < step then
    let a := clamp 0 n ((start.map (fromEnd n)).getD 0)
    let b := clamp 0 n (stop.getD n)
    a ≤ b ∨ step ≤ a - b
  else
    let a := (start.map (fromEnd n)).getD (n - 1)
    if n ≤ a then ∃ b ∈ stop, n ≤ b
    else if a < 0 then ∃ b ∈ stop, b ≤ 0 ∨ -step ≤ min n b
    else ∀ b ∈ stop, (b < 0 → ¬ -step ∣ a) ∧ (a < b → -step ≤ min n b - a)

section Forward

variable {xs : List α} {start stop : Option ℤ} {step : ℤ}

/-- With a positive step the bounds are those of Python. -/
theorem pyBounds_of_pos (hn : 0 ≤ n) (start stop : Option ℤ) (hstep : 0 < step) :
    pyBounds n start stop step =
      ((start.map (sliceStart n)).getD 0, (stop.map (sliceStop n)).getD n) := by
  have hstart : sliceStart n = fun i => clamp 0 n (fromEnd n i) := funext (sliceStart_eq hn)
  have hstop : sliceStop n = fun i => clamp 0 n (fromEnd n i) := funext (sliceStop_eq hn)
  rw [pyBounds, if_pos hstep, hstart, hstop]

theorem sliceOk_of_pos (hn : 0 ≤ n) (start stop : Option ℤ) (hstep : 0 < step) :
    SliceOk n start stop step ↔ (pyBounds n start stop step).1 ≤ (pyBounds n start stop step).2 ∨
      step ≤ (pyBounds n start stop step).1 - (pyBounds n start stop step).2 := by
  have hstart : clamp 0 n ((start.map (fromEnd n)).getD 0) = (pyBounds n start stop step).1 := by
    rw [pyBounds, if_pos hstep]
    cases start with
    | none =>
      simp only [Option.map_none, Option.getD_none, clamp]
      omega
    | some i => rfl
  have hstop : clamp 0 n ((stop.map (fromEnd n)).getD n) = (pyBounds n start stop step).2 := by
    rw [pyBounds, if_pos hstep]
    cases stop with
    | none =>
      simp only [Option.map_none, Option.getD_none, clamp]
      omega
    | some i => rfl
  rw [SliceOk, if_pos hstep, hstart, hstop]

theorem pyBounds_mem_of_pos (hn : 0 ≤ n) (start stop : Option ℤ) (hstep : 0 < step) :
    0 ≤ (pyBounds n start stop step).1 ∧ (pyBounds n start stop step).2 ≤ n := by
  rw [pyBounds_of_pos hn start stop hstep]
  constructor
  · cases start with
    | none => exact le_rfl
    | some i => exact (sliceStart_mem hn).1
  · cases stop with
    | none => exact le_rfl
    | some i => exact sliceStop_le hn

/-- The condition on the number of elements. -/
theorem loop_eq_reads_iff {c : ℕ}
    (hread : ∀ j : ℕ, j < m → 0 ≤ f + j * step ∧ f + j * step < xs.length)
    (hstart : c = m → 0 < m → a = f) :
    sliceLoop xs step c a = some (reads xs step f m) ↔ c = m := by
  obtain ⟨hloop, hlen⟩ := sliceLoop_eq hread
  constructor
  · intro h
    rw [← length_sliceLoop h, hlen]
  · rintro rfl
    obtain rfl | hpos := Nat.eq_zero_or_pos c
    · rfl
    · rw [hstart rfl hpos, hloop]

/-- Reading with a positive step between two bounds. -/
theorem forward_iff (hstep : 0 < step) (ha : 0 ≤ a) (hb : b ≤ xs.length) :
    sliceLoop xs step (count (b - a) step).toNat a = some (reads xs step a (steps (b - a) step)) ↔
      a ≤ b ∨ step ≤ a - b := by
  rw [loop_eq_reads_iff]
  · by_cases hab : a ≤ b
    · rw [count_of_nonneg hstep (by omega)]
      exact iff_of_true rfl (.inl hab)
    · rw [count_of_neg hstep (by omega), steps_of_nonpos hstep (by omega)]
      split <;> omega
  · intro j hj
    have hlt := (lt_steps_iff hstep j).mp hj
    have hpos : 0 ≤ (j : ℤ) * step := by positivity
    omega
  · exact fun _ _ => rfl

theorem slice_forward_iff (xs : List α) (start stop : Option ℤ) (hstep : 0 < step) :
    sliceLoop xs step (sliceCount ((start.map (sliceStart xs.length)).getD 0)
        ((stop.map (sliceStop xs.length)).getD xs.length) step).toNat
        ((start.map (sliceStart xs.length)).getD 0) = some (pySlice xs start stop step) ↔
      SliceOk xs.length start stop step := by
  have hn : (0 : ℤ) ≤ xs.length := by omega
  have hbounds := pyBounds_of_pos hn start stop hstep
  have hok := sliceOk_of_pos hn start stop hstep
  obtain ⟨hlow, hhigh⟩ := pyBounds_mem_of_pos hn start stop hstep
  rw [hbounds] at hok hlow hhigh
  rw [hok, ← forward_iff hstep hlow hhigh, sliceCount, pySlice_of_pos hstep hbounds hlow hhigh]

end Forward

section Backward

variable {xs : List α} {s : ℤ}

theorem sliceCount_backward (a b : ℤ) (hs : 0 < s) : (sliceCount a b (-s)).toNat =
    if b ≤ a then steps (a - b) s else if b - a < s then 1 else 0 := by
  have hd : -(b - a) = a - b := by ring
  rw [sliceCount, count_neg_step, hd]
  split
  · exact count_of_nonneg hs (by omega)
  · rw [count_of_neg hs (by omega)]
    congr 1
    simp only [eq_iff_iff]
    omega

/-- Reading with a negative step, where `a` and `b` are the bounds of the source and `f` and `p`
those of Python. -/
theorem backward_iff (hs : 0 < s) (hf : f < xs.length) (hp : -1 ≤ p)
    (hstart : (sliceCount a b (-s)).toNat = steps (f - p) s → p < f → a = f) :
    sliceLoop xs (-s) (sliceCount a b (-s)).toNat a =
      some (reads xs (-s) f (steps (f - p) s)) ↔
      (sliceCount a b (-s)).toNat = steps (f - p) s := by
  refine loop_eq_reads_iff (fun j hj => ?_) fun heq hpos => hstart heq ?_
  · have hlt := (lt_steps_iff hs j).mp hj
    have hnonneg : 0 ≤ (j : ℤ) * s := by positivity
    rw [mul_neg]
    omega
  · have hlt := (lt_steps_iff hs 0).mp hpos
    simp only [Nat.cast_zero, zero_mul] at hlt
    omega

/-- A start past the last element is read, unless there is nothing to read. -/
theorem backward_past (hs : 0 < s) (hb : b < xs.length) :
    sliceLoop xs (-s) (sliceCount xs.length b (-s)).toNat xs.length = none := by
  refine sliceLoop_none ?_ (by omega)
  rw [sliceCount_backward _ _ hs, if_pos hb.le]
  exact steps_pos hs (by omega)

/-- A start before the first element is taken for the first one. -/
theorem backward_before (hs : 0 < s) (hn : 0 < xs.length) (hb : -1 ≤ b) (hp : -1 ≤ p) :
    sliceLoop xs (-s) (sliceCount 0 b (-s)).toNat 0 = some (reads xs (-s) (-1) (steps (-1 - p) s)) ↔
      b = 0 ∨ 0 < b ∧ s ≤ b := by
  rw [backward_iff hs (by omega) hp (fun _ hlt => by omega), sliceCount_backward _ _ hs,
    steps_of_nonpos hs (by omega : -1 - p ≤ 0)]
  by_cases hle : b ≤ 0
  · rw [if_pos hle]
    by_cases hzero : b = 0
    · rw [hzero, steps_of_nonpos hs (by omega)]
      simp
    · have hpos := steps_pos hs (by omega : 0 < 0 - b)
      omega
  · rw [if_neg hle]
    split <;> omega

/-- A start in the list, where the stop is before the first element or is not. -/
theorem backward_between (hs : 0 < s) (ha₀ : 0 ≤ a) (ha : a < xs.length)
    (hp : -1 ≤ p) (h : b = p ∨ p = -1 ∧ b = 0 ∨ a ≤ p ∧ a < b) :
    sliceLoop xs (-s) (sliceCount a b (-s)).toNat a = some (reads xs (-s) a (steps (a - p) s)) ↔
      (p = -1 → b = 0 → ¬ s ∣ a) ∧ (a < b → s ≤ b - a) := by
  rw [backward_iff hs ha hp (fun _ _ => rfl), sliceCount_backward _ _ hs]
  by_cases hle : b ≤ a
  · rw [if_pos hle]
    by_cases hlast : p = -1 ∧ b = 0
    · obtain ⟨rfl, rfl⟩ := hlast
      have hsucc := steps_succ_eq_iff hs ha₀
      rw [sub_zero, sub_neg_eq_add, hsucc]
      exact ⟨fun hdvd => ⟨fun _ _ => hdvd, fun hlt => by omega⟩, fun hdvd => hdvd.1 rfl rfl⟩
    · obtain rfl : b = p := by omega
      exact iff_of_true rfl ⟨fun hpl hb => absurd ⟨hpl, hb⟩ hlast, fun hlt => by omega⟩
  · rw [if_neg hle, steps_of_nonpos hs (by omega)]
    split <;> omega

/-- Reading from where the source takes the start to be. The bounds `b` of the source and `p` of
Python for the stop differ only before the first element and past the last one. -/
theorem backward_clamped_iff (hs : 0 < s) (hn : 0 < xs.length) (hp : -1 ≤ p)
    (hb : b ≤ xs.length) (h : b = p ∨ p = -1 ∧ b = 0 ∨ p = xs.length - 1 ∧ b = xs.length) :
    sliceLoop xs (-s) (sliceCount (clamp 0 xs.length a) b (-s)).toNat (clamp 0 xs.length a) =
        some (reads xs (-s) (clamp (-1) (xs.length - 1) a)
          (steps (clamp (-1) (xs.length - 1) a - p) s)) ↔
      if xs.length ≤ a then b = xs.length
      else if a < 0 then b = 0 ∨ 0 < b ∧ s ≤ b
      else (p = -1 → b = 0 → ¬ s ∣ a) ∧ (a < b → s ≤ b - a) := by
  by_cases hpast : (xs.length : ℤ) ≤ a
  · have hclamp : clamp 0 xs.length a = xs.length := by unfold clamp; omega
    have hfirst : clamp (-1) (xs.length - 1) a = xs.length - 1 := by unfold clamp; omega
    rw [if_pos hpast, hclamp, hfirst]
    by_cases hb : b = xs.length
    · rw [hb, sliceCount_backward _ _ hs, if_pos le_rfl, steps_of_nonpos hs (by omega),
        steps_of_nonpos hs (by omega)]
      exact iff_of_true rfl rfl
    · rw [backward_past hs (by omega)]
      exact iff_of_false nofun hb
  rw [if_neg hpast]
  by_cases hbefore : a < 0
  · have hclamp : clamp 0 xs.length a = 0 := by unfold clamp; omega
    have hfirst : clamp (-1) (xs.length - 1) a = -1 := by unfold clamp; omega
    rw [if_pos hbefore, hclamp, hfirst, backward_before hs hn (by omega) hp]
  · have hclamp : clamp 0 xs.length a = a := by unfold clamp; omega
    have hfirst : clamp (-1) (xs.length - 1) a = a := by unfold clamp; omega
    rw [if_neg hbefore, hclamp, hfirst, backward_between hs (by omega) (by omega) hp (by omega)]

theorem slice_backward_iff (xs : List α) (start stop : Option ℤ) (hs : 0 < s) (hn : 0 < xs.length) :
    sliceLoop xs (-s) (sliceCount ((start.map (sliceStart xs.length)).getD (xs.length - 1))
        ((stop.map (sliceStop xs.length)).getD (-1)) (-s)).toNat
        ((start.map (sliceStart xs.length)).getD (xs.length - 1)) =
          some (pySlice xs start stop (-s)) ↔
      SliceOk xs.length start stop (-s) := by
  have hlen : (0 : ℤ) < xs.length := by omega
  -- the index of the start, for which the last one stands if there is none
  obtain ⟨a, ha⟩ : ∃ a, (start.map (fromEnd xs.length)).getD (xs.length - 1 : ℤ) = a := ⟨_, rfl⟩
  have hstart : (start.map (sliceStart xs.length)).getD (xs.length - 1 : ℤ) =
      clamp 0 xs.length a := by
    rw [← ha]
    cases start with
    | none =>
      simp only [Option.map_none, Option.getD_none, clamp]
      omega
    | some i => exact sliceStart_eq hlen.le i
  have hbounds : pyBounds xs.length start stop (-s) = (clamp (-1) (xs.length - 1) a,
      (stop.map fun j => clamp (-1) (xs.length - 1) (fromEnd xs.length j)).getD (-1)) := by
    rw [pyBounds, if_neg (by omega), ← ha]
    cases start with
    | none =>
      simp only [Option.map_none, Option.getD_none, clamp]
      congr 1
      omega
    | some i => rfl
  rw [SliceOk, if_neg (by omega), ha, neg_neg, hstart]
  cases stop with
  | none =>
    rw [pySlice_of_neg hs hbounds (by unfold clamp; omega) le_rfl]
    simp only [Option.map_none, Option.getD_none]
    rw [backward_clamped_iff hs hn le_rfl (by omega) (.inl rfl)]
    split_ifs
    · simp
    · simp
    · exact iff_of_true ⟨nofun, fun h => by omega⟩ nofun
  | some j =>
    have hp : -1 ≤ clamp (-1) (xs.length - 1) (fromEnd xs.length j) := by unfold clamp; omega
    rw [pySlice_of_neg hs hbounds (by unfold clamp; omega) hp]
    simp only [Option.map_some, Option.getD_some]
    rw [sliceStop_eq hlen.le, backward_clamped_iff hs hn hp (by unfold clamp; omega)
      (by unfold clamp; omega)]
    simp only [Option.mem_def, Option.some.injEq, exists_eq_left', forall_eq', clamp]
    split_ifs
    · omega
    · omega
    · refine and_congr ⟨fun h hc => h (by omega) (by omega), fun h hlast _ => h (by omega)⟩ ?_
      omega

end Backward

end Bounds

section Read

variable (E : Env) (kind : ℕ → Kind)

/-- Both ways of reading are the loop. -/
theorem vecFromSlice_eq (xs : List α) (start stop step : ℤ) : vecFromSlice xs start stop step =
    sliceLoop xs step (sliceCount start stop step).toNat start := by
  rw [vecFromSlice]
  split
  · rw [Int.toNat_of_nonpos (by omega)]
  · rfl

theorem rawFromSlice_eq (xs : List α) (start stop step : ℤ) : rawFromSlice xs start stop step =
    sliceLoop xs step (sliceCount start stop step).toNat start := by
  rw [rawFromSlice]
  split
  · rw [Int.toNat_of_nonpos (by omega)]
    rfl
  · rfl

/-- The step of a slice is one if there is none. -/
theorem slice_iff (xs : List α) (start stop step : Option ℤ) (hstep : step ≠ some 0)
    (hn : 0 < xs.length) : ∃ i j k, sliceOf xs.length start stop step = .ok (i, j, k) ∧
      (sliceLoop xs k (sliceCount i j k).toNat i = some (pySlice xs start stop (step.getD 1)) ↔
        SliceOk xs.length start stop (step.getD 1)) := by
  cases step with
  | none => exact ⟨_, _, _, rfl, slice_forward_iff xs start stop Int.one_pos⟩
  | some k =>
    rw [sliceOf]
    obtain hneg | rfl | hpos := lt_trichotomy k 0
    · obtain ⟨s, rfl⟩ : ∃ s, k = -s := ⟨-k, by omega⟩
      exact ⟨_, _, _, if_pos hneg, slice_backward_iff xs start stop (by omega) hn⟩
    · exact absurd rfl hstep
    · have hok := slice_forward_iff xs start stop hpos
      exact ⟨_, _, k, (if_neg (by omega)).trans (if_neg (by omega)), hok⟩

theorem indexSlice_iff (fromSlice : List α → ℤ → ℤ → ℤ → Option (List α))
    (hfrom : ∀ xs i j k, fromSlice xs i j k = sliceLoop xs k (sliceCount i j k).toNat i)
    (xs : List α) (start stop step : SliceArg) (hstep : step.value ≠ some 0) :
    indexSlice E kind fromSlice xs start stop step =
        .ok (some (pySlice xs start.value stop.value (step.value.getD 1))) ↔
      xs = [] ∨ SliceOk xs.length start.value stop.value (step.value.getD 1) := by
  rw [indexSlice, readSliceIndices]
  by_cases hn : xs.length = 0
  · obtain rfl := eq_nil_of_length_eq_zero hn
    simp only [hn, if_true, Except.map, hfrom]
    exact iff_of_true rfl (.inl trivial)
  · obtain ⟨i, j, k, hslice, hiff⟩ :=
      slice_iff xs start.value stop.value step.value hstep (Nat.pos_of_ne_zero hn)
    have hne : xs ≠ [] := fun h => hn (by rw [h]; rfl)
    simp only [hn, if_false, SliceArg.sliceIndex_toArg, bind, Except.bind, hslice, Except.map,
      hfrom, Except.ok.injEq, hiff, hne, false_or]

/-- The slice of a list, a string or bytes is the one of Python, with all of the elements it reads
in the list, exactly if its indices meet the condition. -/
theorem slice_reads_python_iff (xs : List α) (start stop step : SliceArg)
    (hstep : step.value ≠ some 0) :
    (indexSlice E kind vecFromSlice xs start stop step =
        .ok (some (pySlice xs start.value stop.value (step.value.getD 1))) ↔
      xs = [] ∨ SliceOk xs.length start.value stop.value (step.value.getD 1)) ∧
    (indexSlice E kind rawFromSlice xs start stop step =
        .ok (some (pySlice xs start.value stop.value (step.value.getD 1))) ↔
      xs = [] ∨ SliceOk xs.length start.value stop.value (step.value.getD 1)) :=
  ⟨indexSlice_iff E kind _ vecFromSlice_eq xs start stop step hstep,
    indexSlice_iff E kind _ rawFromSlice_eq xs start stop step hstep⟩

end Read

/-- The list in reversed order. -/
theorem slice_reads_reversed :
    indexSlice default (fun _ => .instance 0) vecFromSlice [1, 2, 3] .absent .nil (.int (-1)) =
      .ok (some [3, 2, 1]) := by
  obtain ⟨hiff, -⟩ := slice_reads_python_iff default (fun _ => .instance 0) [1, 2, 3] .absent .nil
    (.int (-1)) (by decide)
  have hok : SliceOk 3 none none (-1) := by simp [SliceOk]
  exact hiff.mpr (.inr hok)

/-- One element in place of none, an element past the last one, the first element for a start
before it, and not the first element for a stop before it. -/
theorem slices_differ :
    indexSlice default (fun _ => .instance 0) vecFromSlice [1, 2, 3] (.int 2) (.int 1) (.int 2) =
      .ok (some [3]) ∧ pySlice [1, 2, 3] (some 2) (some 1) 2 = [] ∧
    indexSlice default (fun _ => .instance 0) vecFromSlice [1, 2, 3] (.int 3) .absent (.int (-1)) =
      .ok none ∧ pySlice [1, 2, 3] (some 3) none (-1) = [3, 2, 1] ∧
    indexSlice default (fun _ => .instance 0) vecFromSlice [1, 2, 3] (.int (-4)) .absent
      (.int (-1)) = .ok (some [1]) ∧ pySlice [1, 2, 3] (some (-4)) none (-1) = [] ∧
    indexSlice default (fun _ => .instance 0) vecFromSlice [1, 2, 3] .absent (.int (-4))
      (.int (-1)) = .ok (some [3, 2]) ∧ pySlice [1, 2, 3] none (some (-4)) (-1) = [3, 2, 1] := by
  refine ⟨rfl, ?_, rfl, ?_, rfl, ?_, rfl, ?_⟩ <;> decide

end ThingsDB.Lists
