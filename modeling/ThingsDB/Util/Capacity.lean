import ThingsDB.Lib.Transition
import ThingsDB.Util.Vec

/-!
# The capacity of a vector

The functions of `util/vec` which change a vector, with the slots which are allocated for its
data. Allocations succeed, and an access to a slot which is not allocated is an error.
-/

namespace ThingsDB.Util

/-- `vec_t`, with the number of slots which are allocated. -/
structure Vec (α : Type) where
  n : ℕ
  sz : ℕ
  alloc : ℕ
  data : Slots α

namespace Vec

section Code

variable {α : Type} [Inhabited α]

def new (sz : ℕ) : Vec α := ⟨0, sz, sz, fun _ => default⟩

variable (v : Vec α)

def elems : List α := v.data.read v.n

def space : ℕ := (v.sz + 2 ^ 32 - v.n) % 2 ^ 32

/-- `realloc` with a number of slots; the data in the slots of both is kept. -/
def realloc (m : ℕ) : Vec α :=
  { v with alloc := m, data := fun p => if p < v.alloc ∧ p < m then v.data p else default }

def write (i : ℕ) (x : α) : Option (Vec α) :=
  if i < v.alloc then some { v with data := v.data.set i x } else none

def memmove (dst src cnt : ℕ) : Option (Vec α) :=
  if dst + cnt ≤ v.alloc ∧ src + cnt ≤ v.alloc then
    some { v with data := v.data.memmove dst src cnt }
  else none

/-- `VEC_push`, without a check. -/
def uncheckedPush (x : α) : Option (Vec α) :=
  (v.write v.n x).map fun w => { w with n := (w.n + 1) % 2 ^ 32 }

/-- The size is doubled by `vec_push` and `vec_insert` if the vector is full. -/
def grow : Vec α :=
  if v.n = v.sz then
    let sz := if v.sz = 0 then 1 else v.sz * 2 % 2 ^ 32
    realloc { v with sz := sz } sz
  else v

def push (x : α) : Option (Vec α) := v.grow.uncheckedPush x

def insert (x : α) (i : ℕ) : Option (Vec α) :=
  if v.n < i then none
  else
    let w := v.grow
    (if i < w.n then w.memmove (i + 1) i (w.n - i) else some w).bind fun w =>
      (w.write i x).map fun w => { w with n := (w.n + 1) % 2 ^ 32 }

def extend (xs : List α) : Option (Vec α) :=
  let n := (v.n + xs.length) % 2 ^ 32
  let w := if v.sz < n then { v.realloc n with sz := n } else v
  if n - xs.length + xs.length ≤ w.alloc then
    some { w with n := n, data := w.data.write (n - xs.length) xs }
  else none

def remove (i : ℕ) : Option (α × Vec α) :=
  if i < v.alloc then
    (memmove { v with n := v.n - 1 } i (i + 1) (v.n - 1 - i)).map fun w => (v.data i, w)
  else none

def swapRemove (i : ℕ) : Option (α × Vec α) :=
  if 0 < v.n ∧ i < v.alloc ∧ v.n - 1 < v.alloc then
    some (v.data i, { v with n := v.n - 1, data := v.data.set i (v.data (v.n - 1)) })
  else none

def reserve (k : ℕ) : Vec α :=
  if v.space < k then
    let double := v.sz * 2 % 2 ^ 32
    let sz := if (double + 2 ^ 64 - v.n) % 2 ^ 64 < k then k else double
    realloc { v with sz := sz } sz
  else v

def make (v : Option (Vec α)) (k : ℕ) : Vec α := v.elim (new k) fun v => v.reserve k

def resize (sz : ℕ) : Vec α :=
  { v.realloc sz with n := if sz < v.n then sz else v.n, sz := sz }

def mayShrink : Vec α :=
  if v.space < 16 then v else { v.realloc ((v.n + 8) % 2 ^ 32) with sz := v.n }

def shrink : Vec α := if v.n = v.sz then v else { v.realloc v.n with sz := v.n }

end Code

inductive Call (α : Type) where
  | push (x : α)
  | insert (x : α) (i : ℕ)
  | extend (xs : List α)
  | remove (i : ℕ)
  | swapRemove (i : ℕ)
  | reserve (k : ℕ)
  | make (k : ℕ)
  | resize (sz : ℕ)
  | mayShrink
  | shrink

variable {α : Type} [Inhabited α]

def step (v : Vec α) : Call α → Option (Vec α)
  | .push x => v.push x
  | .insert x i => v.insert x i
  | .extend xs => v.extend xs
  | .remove i => (v.remove i).map Prod.snd
  | .swapRemove i => (v.swapRemove i).map Prod.snd
  | .reserve k => some (v.reserve k)
  | .make k => some (make (some v) k)
  | .resize sz => some (v.resize sz)
  | .mayShrink => some v.mayShrink
  | .shrink => some v.shrink

/-- Indexes are in range and sizes are below `2 ^ 31`. -/
def InRange (v : Vec α) (c : Call α) : Prop :=
  v.sz < 2 ^ 31 ∧
    match c with
    | .insert _ i => i ≤ v.n
    | .remove i | .swapRemove i => i < v.n
    | .extend xs => xs.length < 2 ^ 31
    | .reserve k | .make k | .resize k => k < 2 ^ 31
    | .push _ | .mayShrink | .shrink => True

structure Within (v : Vec α) : Prop where
  n_le : v.n ≤ v.sz
  sz_le : v.sz ≤ v.alloc

section Steps

variable {v : Vec α} {k i : ℕ}

theorem make_some (v : Vec α) (k : ℕ) : make (some v) k = v.reserve k := by
  rw [make, Option.elim_some]

omit [Inhabited α] in
theorem space_eq (h : v.Within) (hsz : v.sz < 2 ^ 31) : v.space = v.sz - v.n := by
  have hn := h.n_le
  unfold space
  omega

omit [Inhabited α] in
theorem uncheckedPush_eq (h : v.n < v.alloc) (x : α) :
    v.uncheckedPush x = some ⟨(v.n + 1) % 2 ^ 32, v.sz, v.alloc, v.data.set v.n x⟩ := by
  rw [uncheckedPush, write, if_pos h]
  rfl

section

variable (h : v.Within) (hsz : v.sz < 2 ^ 31)

include h hsz

theorem grow_spec :
    v.grow.n = v.n ∧ v.n < v.grow.sz ∧ v.grow.sz < 2 ^ 32 ∧ v.grow.sz ≤ v.grow.alloc := by
  obtain ⟨hn, hle⟩ := h
  unfold grow
  split_ifs with hfull hzero
  · exact ⟨rfl, by simp [realloc]; omega, by simp [realloc], le_rfl⟩
  · exact ⟨rfl, by simp [realloc]; omega, by simp [realloc]; omega, le_rfl⟩
  · exact ⟨rfl, by omega, by omega, hle⟩

theorem push_within (x : α) : ∃ w, v.push x = some w ∧ w.Within := by
  obtain ⟨hn, hlt, hmax, halloc⟩ := grow_spec h hsz
  refine ⟨_, uncheckedPush_eq (by omega) x, ?_, halloc⟩
  simp only
  omega

theorem insert_within (hi : i ≤ v.n) (x : α) : ∃ w, v.insert x i = some w ∧ w.Within := by
  obtain ⟨hn, hlt, hmax, halloc⟩ := grow_spec h hsz
  have hmove : ∃ d,
      (if i < v.grow.n then v.grow.memmove (i + 1) i (v.grow.n - i) else some v.grow) =
        some { v.grow with data := d } := by
    unfold memmove
    split_ifs with hlast hroom
    · exact ⟨_, rfl⟩
    · omega
    · exact ⟨_, rfl⟩
  obtain ⟨d, hd⟩ := hmove
  refine ⟨⟨(v.grow.n + 1) % 2 ^ 32, v.grow.sz, v.grow.alloc, d.set i x⟩, ?_, ?_, halloc⟩
  · simp only [insert, if_neg (show ¬ v.n < i by omega), hd, Option.bind_some, write]
    rw [if_pos (by omega)]
    rfl
  · simp only
    omega

theorem extend_within {xs : List α}
    (hxs : xs.length < 2 ^ 31) : ∃ w, v.extend xs = some w ∧ w.Within := by
  obtain ⟨hn, hle⟩ := h
  have hsum : (v.n + xs.length) % 2 ^ 32 = v.n + xs.length := by omega
  simp only [extend, hsum, Nat.add_sub_cancel]
  by_cases hfull : v.sz < v.n + xs.length
  · rw [if_pos hfull, if_pos (by simp [realloc])]
    exact ⟨_, rfl, le_rfl, le_rfl⟩
  · rw [if_neg hfull, if_pos (by omega)]
    exact ⟨_, rfl, by simp only; omega, hle⟩

end

omit [Inhabited α] in
theorem remove_within (h : v.Within) (hi : i < v.n) :
    ∃ w, (v.remove i).map Prod.snd = some w ∧ w.Within := by
  obtain ⟨hn, hle⟩ := h
  rw [remove, if_pos (by omega), memmove, if_pos (by simp only; omega)]
  exact ⟨_, rfl, by simp only; omega, hle⟩

omit [Inhabited α] in
theorem swapRemove_within (h : v.Within) (hi : i < v.n) :
    ∃ w, (v.swapRemove i).map Prod.snd = some w ∧ w.Within := by
  obtain ⟨hn, hle⟩ := h
  rw [swapRemove, if_pos (by omega)]
  exact ⟨_, rfl, by simp only; omega, hle⟩

/-- There is room for the elements, the size is doubled, or it is what was asked for. -/
theorem reserve_cases (h : v.Within) (hsz : v.sz < 2 ^ 31) (k : ℕ) :
    v.n + k ≤ v.sz ∧ v.reserve k = v ∨
    v.sz < v.n + k ∧ v.n + k ≤ 2 * v.sz ∧
      v.reserve k = realloc { v with sz := 2 * v.sz } (2 * v.sz) ∨
    2 * v.sz < v.n + k ∧ v.reserve k = realloc { v with sz := k } k := by
  have hn := h.n_le
  have hdouble : v.sz * 2 % 2 ^ 32 = 2 * v.sz := by omega
  have hrest : (2 * v.sz + 2 ^ 64 - v.n) % 2 ^ 64 = 2 * v.sz - v.n := by omega
  simp only [reserve, space_eq h hsz, hdouble, hrest]
  by_cases hroom : v.sz - v.n < k
  · rw [if_pos hroom]
    by_cases hless : 2 * v.sz - v.n < k
    · simp only [if_pos hless]
      exact Or.inr (Or.inr ⟨by omega, trivial⟩)
    · simp only [if_neg hless]
      exact Or.inr (Or.inl ⟨by omega, by omega, trivial⟩)
  · rw [if_neg hroom]
    exact Or.inl ⟨by omega, rfl⟩

theorem elems_realloc {m sz : ℕ} (ha : v.n ≤ v.alloc) (hm : v.n ≤ m) :
    (realloc { v with sz := sz } m).elems = v.elems := by
  apply List.map_congr_left
  intro p hp
  have hlt : p < v.n := List.mem_range.mp hp
  exact if_pos ⟨by simp only; omega, by omega⟩

theorem reserve_spec (h : v.Within) (hsz : v.sz < 2 ^ 31) (k : ℕ) :
    (v.reserve k).Within ∧ (v.reserve k).n = v.n ∧ (v.reserve k).elems = v.elems := by
  obtain ⟨hn, hle⟩ := h
  obtain ⟨-, heq⟩ | ⟨-, -, heq⟩ | ⟨hlt, heq⟩ := reserve_cases ⟨hn, hle⟩ hsz k
  · rw [heq]
    exact ⟨⟨hn, hle⟩, rfl, rfl⟩
  · rw [heq]
    exact ⟨⟨by simp only [realloc]; omega, le_rfl⟩, rfl, elems_realloc (by omega) (by omega)⟩
  · rw [heq]
    exact ⟨⟨by simp only [realloc]; omega, le_rfl⟩, rfl, elems_realloc (by omega) (by omega)⟩

theorem resize_within (v : Vec α) (sz : ℕ) : (v.resize sz).Within := by
  refine ⟨?_, le_rfl⟩
  simp only [resize]
  split_ifs
  · exact le_rfl
  · omega

theorem mayShrink_within (h : v.Within) (hsz : v.sz < 2 ^ 31) : v.mayShrink.Within := by
  have hn := h.n_le
  unfold mayShrink
  split_ifs
  · exact h
  · exact ⟨le_rfl, by simp only [realloc]; omega⟩

theorem shrink_within (h : v.Within) : v.shrink.Within := by
  unfold shrink
  split_ifs
  · exact h
  · exact ⟨le_rfl, le_rfl⟩

/-- A call does not access other slots than those of the vector. -/
theorem step_within {c : Call α} (h : v.Within) (hc : v.InRange c) :
    ∃ w, v.step c = some w ∧ w.Within := by
  obtain ⟨hsz, hargs⟩ := hc
  cases c with
  | push x => exact push_within h hsz x
  | insert x i => exact insert_within h hsz hargs x
  | extend xs => exact extend_within h hsz hargs
  | remove i => exact remove_within h hargs
  | swapRemove i => exact swapRemove_within h hargs
  | reserve k => exact ⟨_, rfl, (reserve_spec h hsz k).1⟩
  | make k => exact ⟨v.reserve k, by rw [step, make_some], (reserve_spec h hsz k).1⟩
  | resize sz => exact ⟨_, rfl, resize_within v sz⟩
  | mayShrink => exact ⟨_, rfl, mayShrink_within h hsz⟩
  | shrink => exact ⟨_, rfl, shrink_within h⟩

end Steps

section Promise

variable {v : Vec α} {k : ℕ}

omit [Inhabited α] in
theorem foldlM_uncheckedPush_iff {xs : List α} (ha : v.n ≤ v.alloc)
    (hmax : v.n + xs.length < 2 ^ 32) :
    (∃ w, xs.foldlM uncheckedPush v = some w) ↔ v.n + xs.length ≤ v.alloc := by
  induction xs generalizing v with
  | nil => simpa using ha
  | cons x xs ih =>
    rw [List.length_cons] at hmax ⊢
    by_cases hlt : v.n < v.alloc
    · have hn : (v.n + 1) % 2 ^ 32 = v.n + 1 := by omega
      rw [List.foldlM_cons, uncheckedPush_eq hlt, hn]
      refine (ih ?_ ?_).trans ?_
      · exact hlt
      · simp only
        omega
      · simp only
        omega
    · have hnone : v.uncheckedPush x = none := by rw [uncheckedPush, write, if_neg hlt]; rfl
      rw [List.foldlM_cons, hnone]
      simp
      omega

def Enough (v : Vec α) (k : ℕ) : Prop := v.n + k ≤ 2 * v.sz ∨ v.n = 0

/-- There is room for `k` more elements in the size and in what is allocated. -/
theorem reserve_room_iff (h : v.Within) (hsz : v.sz < 2 ^ 31) :
    (v.n + k ≤ (v.reserve k).sz ↔ v.Enough k) ∧ (v.n + k ≤ (v.reserve k).alloc ↔ v.Enough k) := by
  obtain ⟨hn, hle⟩ := h
  unfold Enough
  obtain ⟨hroom, heq⟩ | ⟨-, htwice, heq⟩ | ⟨hlt, heq⟩ := reserve_cases ⟨hn, hle⟩ hsz k
  · rw [heq]
    omega
  · rw [heq]
    simp only [realloc]
    omega
  · rw [heq]
    simp only [realloc]
    omega

end Promise

end Vec

/-- A vector which is made by calls within range has its elements within the size, and the size
within what is allocated. After space for `k` elements is reserved, the elements are the same, and
`k` elements can be pushed without a check, exactly if the size which is reserved is large
enough. -/
theorem reserved_iff {α : Type} [Inhabited α] {z : ℕ} {calls : List (Vec.Call α)}
    (hcalls : Transition.Along Vec.step Vec.InRange (Vec.new z) calls) :
    ∃ v, Transition.run Vec.step (Vec.new z) calls = some v ∧ v.n ≤ v.sz ∧ v.sz ≤ v.alloc ∧
      (v.sz < 2 ^ 31 → ∀ k < 2 ^ 31, ∀ w, w = v.reserve k ∨ w = Vec.make (some v) k →
        w.elems = v.elems ∧ (w.n + k ≤ w.sz ↔ v.Enough k) ∧
          ∀ xs : List α, xs.length = k →
            ((∃ u, xs.foldlM Vec.uncheckedPush w = some u) ↔ v.Enough k)) := by
  have hnew : (Vec.new z : Vec α).Within := ⟨Nat.zero_le z, le_rfl⟩
  obtain ⟨v, hrun, hv⟩ := Transition.run_total_along (fun v c => Vec.step_within) hnew hcalls
  refine ⟨v, hrun, hv.n_le, hv.sz_le, ?_⟩
  intro hsz k hk w hw
  rw [Vec.make_some, or_self] at hw
  subst hw
  obtain ⟨⟨hn, hle⟩, hsame, helems⟩ := Vec.reserve_spec hv hsz k
  obtain ⟨hroom, halloc⟩ := Vec.reserve_room_iff (k := k) hv hsz
  refine ⟨helems, hsame ▸ hroom, ?_⟩
  rintro xs rfl
  have hvn := hv.n_le
  rw [Vec.foldlM_uncheckedPush_iff (hn.trans hle) (by omega), hsame, halloc]

/-- In a vector with two slots, one of which is used, space for two elements is reserved. -/
theorem reserved_two : ∃ v, Transition.run Vec.step (Vec.new 2) [.push 7] = some v ∧
    ∀ xs : List ℕ, xs.length = 2 → ∃ u, xs.foldlM Vec.uncheckedPush (v.reserve 2) = some u := by
  have hcalls : Transition.Along Vec.step Vec.InRange (Vec.new 2) [.push 7] :=
    ⟨⟨by simp [Vec.new], trivial⟩, fun _ _ => trivial⟩
  obtain ⟨v, hrun, -, -, hall⟩ := reserved_iff hcalls
  obtain rfl : ⟨1, 2, 2, Slots.set (fun _ => 0) 0 7⟩ = v := Option.some.inj hrun
  refine ⟨_, rfl, fun xs hxs => ?_⟩
  exact ((hall (by simp) 2 (by simp) _ (Or.inl rfl)).2.2 xs hxs).mpr (Or.inl (by simp))

/-- In a full vector with one slot, space for two elements is reserved: the size is two then, and
the second element is written behind what is allocated. -/
theorem reserved_too_few : ∃ v, Transition.run Vec.step (Vec.new 1) [.push 7] = some v ∧
    (v.reserve 2).n = 1 ∧ (v.reserve 2).sz = 2 ∧
      [8, 9].foldlM Vec.uncheckedPush (v.reserve 2) = none := by
  refine ⟨⟨1, 1, 1, Slots.set (fun _ => 0) 0 7⟩, rfl, ?_, ?_, ?_⟩
  · simp [Vec.reserve, Vec.space, Vec.realloc]
  · simp [Vec.reserve, Vec.space, Vec.realloc]
  · simp [Vec.reserve, Vec.space, Vec.realloc, Vec.uncheckedPush, Vec.write]

end ThingsDB.Util
