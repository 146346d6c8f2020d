import ThingsDB.Lib.Rotate
import ThingsDB.Util.Vec

/-!
# Moving a block of elements

`vec_move` moves `n` elements of a vector from one position to another and keeps the
order of the others. The block and the elements it passes are rotated in place. The
next slot of a cycle is a sum of 32 bits, which may wrap around.
-/

namespace ThingsDB.Util

open List

variable {α : Type}

/-- The cycles which `vec_move` runs through. -/
def Slots.rotate (b : Slots α) (pos n range : ℕ) : Slots α := Rotate.rotate pos n range b

theorem Slots.rotate_apply (b : Slots α) (pos n : ℕ) {range k : ℕ} (hk : k < range) :
    b.rotate pos n range (k + pos) = b ((k + n) % range + pos) :=
  Rotate.rotate_apply hk b

theorem Slots.rotate_of_outside (b : Slots α) (n : ℕ) {pos range p : ℕ} (hr : 0 < range)
    (hp : p < pos ∨ pos + range ≤ p) : b.rotate pos n range p = b p :=
  Rotate.rotate_of_outside hr hp b

variable [Inhabited α]

/-- `vec_move`, where no sum wraps around. -/
def vecMove (l : List α) (pos n dst : ℕ) : List α :=
  if dst = pos ∨ n = 0 then l
  else if dst < pos then
    -- the elements in between move to the back instead
    ((Slots.ofList l).rotate dst (pos - dst) (dst + n + (pos - dst) - dst)).read l.length
  else ((Slots.ofList l).rotate pos n (dst + n - pos)).read l.length

theorem read_rotate (a s m z : List α) (hs : s ≠ []) :
    ((Slots.ofList (a ++ s ++ m ++ z)).rotate a.length s.length (s.length + m.length)).read
      (a ++ s ++ m ++ z).length = a ++ m ++ s ++ z := by
  have hr : 0 < s.length + m.length := Nat.add_pos_left (length_pos_iff.mpr hs) _
  apply ext_getElem?
  intro p
  by_cases hp : p < (a ++ s ++ m ++ z).length
  · rw [Slots.getElem?_read _ hp]
    simp only [length_append] at hp
    by_cases hin : a.length ≤ p ∧ p < a.length + (s.length + m.length)
    · obtain ⟨k, rfl⟩ : ∃ k, p = k + a.length := ⟨p - a.length, by omega⟩
      rw [Slots.rotate_apply _ _ _ (by omega)]
      by_cases hk : k < m.length
      · rw [Nat.mod_eq_of_lt (by omega)]
        simp only [Slots.ofList, getD_eq_getElem?_getD, getElem?_append, length_append]
        grind
      · rw [Nat.mod_eq_sub_mod (by omega), Nat.mod_eq_of_lt (by omega)]
        simp only [Slots.ofList, getD_eq_getElem?_getD, getElem?_append, length_append]
        grind
    · rw [Slots.rotate_of_outside _ _ hr (by omega)]
      simp only [Slots.ofList, getD_eq_getElem?_getD, getElem?_append, length_append]
      grind
  · rw [getElem?_eq_none (by simpa using hp), getElem?_eq_none]
    simp only [length_append] at hp ⊢
    omega

theorem vecMove_back (a s m z : List α) :
    vecMove (a ++ s ++ m ++ z) a.length s.length (a.length + m.length) = a ++ m ++ s ++ z := by
  rw [vecMove]
  by_cases h : a.length + m.length = a.length ∨ s.length = 0
  · rw [if_pos h]
    rcases h with h | h
    · rw [length_eq_zero_iff.mp (by omega : m.length = 0)]
      simp
    · rw [length_eq_zero_iff.mp h]
      simp
  · rw [if_neg h, if_neg (by omega), show a.length + m.length + s.length - a.length =
      s.length + m.length by omega]
    exact read_rotate a s m z (fun hs => h (Or.inr (by rw [hs]; rfl)))

theorem vecMove_front (a s m z : List α) :
    vecMove (a ++ m ++ s ++ z) (a.length + m.length) s.length a.length = a ++ s ++ m ++ z := by
  rw [vecMove]
  by_cases h : a.length = a.length + m.length ∨ s.length = 0
  · rw [if_pos h]
    rcases h with h | h
    · rw [length_eq_zero_iff.mp (by omega : m.length = 0)]
      simp
    · rw [length_eq_zero_iff.mp h]
      simp
  · have hm : m ≠ [] := fun hm => h (Or.inl (by rw [hm]; rfl))
    have hpos : 0 < m.length := length_pos_iff.mpr hm
    rw [if_neg h, if_pos (by omega), Nat.add_sub_cancel_left,
      show a.length + s.length + m.length - a.length = m.length + s.length by omega]
    exact read_rotate a m s z hm

section Block

/-- The elements are cut out and inserted again, so that they start at another index. -/
def moveBlock {α : Type} (l : List α) (pos n dst : ℕ) : List α :=
  let rest := l.take pos ++ l.drop (pos + n)
  rest.take dst ++ (l.drop pos).take n ++ rest.drop dst

omit [Inhabited α] in
theorem moveBlock_append (a s r : List α) (dst : ℕ) :
    moveBlock (a ++ s ++ r) a.length s.length dst =
      (a ++ r).take dst ++ s ++ (a ++ r).drop dst := by
  have htake : (a ++ s ++ r).take a.length = a := by rw [append_assoc, take_left]
  have hdrop : (a ++ s ++ r).drop (a.length + s.length) = r := by
    rw [← length_append, drop_left]
  have hblock : ((a ++ s ++ r).drop a.length).take s.length = s := by
    rw [append_assoc, drop_left, take_left]
  simp only [moveBlock, htake, hdrop, hblock]

omit [Inhabited α] in
theorem exists_blocks {l : List α} {i j k : ℕ} (h : i + j + k ≤ l.length) :
    ∃ a s m z, l = a ++ s ++ m ++ z ∧ a.length = i ∧ s.length = j ∧ m.length = k := by
  refine ⟨l.take i, (l.drop i).take j, (l.drop (i + j)).take k, l.drop (i + j + k), ?_, ?_, ?_, ?_⟩
  · rw [← take_add, ← take_add, take_append_drop]
  all_goals
    simp
    omega

theorem vecMove_eq_moveBlock {l : List α} {pos n dst : ℕ} (hpos : pos + n ≤ l.length)
    (hdst : dst + n ≤ l.length) : vecMove l pos n dst = moveBlock l pos n dst := by
  rcases Nat.le_total pos dst with hle | hle
  · obtain ⟨a, s, m, z, rfl, rfl, rfl, hm⟩ := exists_blocks (l := l) (i := pos) (j := n)
      (k := dst - pos) (by omega)
    obtain rfl : dst = a.length + m.length := by omega
    rw [vecMove_back, append_assoc (a ++ s), moveBlock_append, ← append_assoc,
      ← length_append, take_left, drop_left]
  · obtain ⟨a, m, s, z, rfl, rfl, hm, rfl⟩ := exists_blocks (l := l) (i := dst)
      (j := pos - dst) (k := n) (by omega)
    obtain rfl : pos = a.length + m.length := by omega
    rw [vecMove_front, ← length_append, moveBlock_append, append_assoc a m z,
      take_left, drop_left, append_assoc (a ++ s)]

end Block

section Wrap

/-- `vec__gcd`; the second number is not zero. -/
def vecGcd (a b : ℕ) : ℕ :=
  if b = 0 then a else if a % b = 0 then b else vecGcd b (a % b)
termination_by b
decreasing_by exact Nat.mod_lt a (by omega)

theorem vecGcd_eq (a b : ℕ) : vecGcd a b = Nat.gcd a b := by
  induction a, b using vecGcd.induct with
  | case1 a => simp [vecGcd]
  | case2 a b hb hmod =>
    rw [vecGcd, if_neg hb, if_pos hmod, Nat.gcd_comm, Nat.gcd_rec, hmod, Nat.gcd_zero_left]
  | case3 a b hb hmod ih =>
    rw [vecGcd, if_neg hb, if_neg hmod, ih, Nat.gcd_comm a b, Nat.gcd_rec b a, Nat.gcd_comm]

/-- The next slot in a cycle of `vec_move`. -/
def nextSlot (n range i : ℕ) : ℕ := (i + n) % 2 ^ 32 % range

/-- `vec_move` to a position behind the block; `none` if the assertion fails. -/
def vecMoveBack (l : List α) (pos n dst : ℕ) : Option (List α) :=
  if l.length < (dst + n) % 2 ^ 32 then none
  else
    let range := (dst + n + 2 ^ 32 - pos) % 2 ^ 32
    let gcd := vecGcd range n
    some (Slots.read (Rotate.rounds (nextSlot n range) pos (range / gcd - 1) gcd (Slots.ofList l))
      l.length)

/-- `vec_move` with numbers of 32 bits. -/
def vecMove32 (l : List α) (pos n dst : ℕ) : Option (List α) :=
  if dst = pos ∨ n = 0 then some l
  else if dst < pos then vecMoveBack l dst (pos - dst) ((dst + n) % 2 ^ 32)
  else vecMoveBack l pos n dst

variable {l : List α} {pos n dst range : ℕ}

theorem vecMoveBack_eq (hlt : pos < dst) (hdst : dst + n ≤ l.length) (hl : l.length < 2 ^ 32) :
    vecMoveBack l pos n dst = some (Slots.read (Rotate.rounds (nextSlot n (dst + n - pos)) pos
      ((dst + n - pos) / Nat.gcd (dst + n - pos) n - 1) (Nat.gcd (dst + n - pos) n)
      (Slots.ofList l)) l.length) := by
  have hsum : (dst + n) % 2 ^ 32 = dst + n := Nat.mod_eq_of_lt (by omega)
  have hrange : (dst + n + 2 ^ 32 - pos) % 2 ^ 32 = dst + n - pos := by omega
  simp only [vecMoveBack, hsum, hrange, vecGcd_eq]
  rw [if_neg (by omega)]

/-- No sum wraps around, apart from those of the last slots of the cycles. -/
def CyclesFit (n range : ℕ) : Prop := range + n ≤ 2 ^ 32 ∨ n ∣ range

omit [Inhabited α] in
theorem rounds_of_cyclesFit (hn : 0 < n) (hlt : n < range) (hr : range < 2 ^ 32)
    (h : CyclesFit n range) (b : Slots α) :
    Rotate.rounds (nextSlot n range) pos (range / range.gcd n - 1) (range.gcd n) b =
      b.rotate pos n range := by
  apply Rotate.rounds_eq_rotate (by omega)
  intro s hs t ht
  have hslot := Rotate.orbit_lt (n := n) (i := s) (show 0 < range by omega) t
  have hsum : Rotate.orbit n range s t + n < 2 ^ 32 := by
    rcases h with h | hdvd
    · omega
    · rw [Nat.gcd_eq_right hdvd] at hs ht
      have hle : (t + 1) * n ≤ (range / n - 1) * n := Nat.mul_le_mul_right n ht
      rw [Nat.sub_mul, Nat.div_mul_cancel hdvd, Nat.add_mul, Nat.one_mul] at hle
      rw [Rotate.orbit, Nat.mod_eq_of_lt (by omega)]
      omega
  rw [nextSlot, Nat.mod_eq_of_lt hsum]

variable (pos) in
omit [Inhabited α] in
theorem cyclesFit_of_rounds (hn : 0 < n) (hlt : n < range) (hr : range < 2 ^ 32) {b : Slots α}
    (hb : ∀ j < range, ∀ k < range, b (j + pos) = b (k + pos) → j = k)
    (h : ∀ k < range, Rotate.rounds (nextSlot n range) pos (range / range.gcd n - 1)
      (range.gcd n) b (k + pos) = b ((k + n) % range + pos)) : CyclesFit n range := by
  by_contra hfit
  obtain ⟨hwrap, hdvd⟩ := not_or.mp hfit
  have hg : 0 < range.gcd n := Nat.gcd_pos_of_pos_right range hn
  have hgle : range.gcd n ≤ range := Nat.gcd_le_left n (by omega)
  have hnext : ∀ i, nextSlot n range i < range := fun i => Nat.mod_lt _ (by omega)
  have hclass : (range - 1) % range.gcd n = (range.gcd n - 1) % range.gcd n := by
    have hsub : range - 1 = range.gcd n - 1 + (range - range.gcd n) := by omega
    rw [hsub, Nat.add_mod, Nat.mod_eq_zero_of_dvd (Nat.dvd_sub (Nat.gcd_dvd_left range n) dvd_rfl),
      Nat.add_zero, Nat.mod_mod]
  -- the last slot is in the first cycle
  obtain ⟨t, ht, hlast⟩ := Rotate.exists_orbit_eq (n := n) (i := range.gcd n - 1)
    (show 0 < range by omega) (show range - 1 < range by omega) hclass
  have hturn : (range - 1 + n) % range = n - 1 := by
    rw [show range - 1 + n = n - 1 + range by omega, Nat.add_mod_right, Nat.mod_eq_of_lt (by omega)]
  by_cases hend : t < range / range.gcd n - 1
  · have hstep := Rotate.next_of_rotated hn hlt hnext hb h hend
    have hsum : (range - 1 + n) % 2 ^ 32 = range - 1 + n - 2 ^ 32 := by omega
    rw [hlast, hturn, nextSlot, hsum, Nat.mod_eq_of_lt (by omega)] at hstep
    omega
  · -- the cycle ends in its last slot, so the distance divides the range
    have hclose := Rotate.orbit_close (n := n) (show range.gcd n - 1 < range by omega)
    rw [show range / range.gcd n = t + 1 by omega, Rotate.orbit_succ, hlast, hturn] at hclose
    apply hdvd
    rw [show n = range.gcd n by omega]
    exact Nat.gcd_dvd_left range n

theorem vecMoveBack_of_fits (hn : 0 < n) (hlt : pos < dst) (hdst : dst + n ≤ l.length)
    (hl : l.length < 2 ^ 32) (h : CyclesFit n (dst + n - pos)) :
    vecMoveBack l pos n dst =
      some (((Slots.ofList l).rotate pos n (dst + n - pos)).read l.length) := by
  rw [vecMoveBack_eq hlt hdst hl, rounds_of_cyclesFit hn (by omega) (by omega) h]

/-- Distinct elements are only rotated if the cycles fit. -/
theorem fits_of_vecMoveBack {L : ℕ} (hn : 0 < n) (hlt : pos < dst) (hdst : dst + n ≤ L)
    (hL : L < 2 ^ 32) (h : vecMoveBack (List.range L) pos n dst =
      some (((Slots.ofList (List.range L)).rotate pos n (dst + n - pos)).read L)) :
    CyclesFit n (dst + n - pos) := by
  rw [vecMoveBack_eq hlt (by simpa using hdst) (by simpa using hL), Option.some.injEq,
    length_range] at h
  have hslot : ∀ p < L, Slots.ofList (List.range L) p = p := fun p hp => by
    simp [Slots.ofList, hp]
  apply cyclesFit_of_rounds pos (b := Slots.ofList (List.range L)) hn (by omega) (by omega)
  · intro j hj k hk heq
    rw [hslot _ (by omega), hslot _ (by omega)] at heq
    omega
  · intro k hk
    have hget := congrArg (·[k + pos]?) h
    simp only [Slots.getElem?_read _ (show k + pos < L by omega), Option.some.injEq] at hget
    rw [hget, Slots.rotate_apply _ _ _ hk]

/-- The cycles of a move fit. To the front these are those of the elements which are passed. -/
def MoveFits (pos n dst : ℕ) : Prop :=
  if dst < pos then CyclesFit (pos - dst) (n + (pos - dst)) else CyclesFit n (n + (dst - pos))

section

variable (hpos : pos + n ≤ l.length) (hdst : dst + n ≤ l.length) (hl : l.length < 2 ^ 32)

include hpos hdst hl

theorem vecMove32_cases :
    vecMove32 l pos n dst = some (vecMove l pos n dst) ∧ MoveFits pos n dst ∨
    ∃ pos' n' dst', 0 < n' ∧ pos' < dst' ∧ dst' + n' ≤ l.length ∧
      (MoveFits pos n dst ↔ CyclesFit n' (dst' + n' - pos')) ∧
      vecMove32 l pos n dst = vecMoveBack l pos' n' dst' ∧
      vecMove l pos n dst = ((Slots.ofList l).rotate pos' n' (dst' + n' - pos')).read l.length := by
  unfold vecMove32 vecMove MoveFits
  by_cases hsame : dst = pos ∨ n = 0
  · rw [if_pos hsame, if_pos hsame]
    refine Or.inl ⟨rfl, ?_⟩
    rcases hsame with rfl | rfl
    · simp [CyclesFit]
    · split_ifs
      · simp [CyclesFit]
      · exact Or.inl (by omega)
  · rw [if_neg hsame, if_neg hsame]
    by_cases hlt : dst < pos
    · simp only [if_pos hlt]
      refine Or.inr ⟨dst, pos - dst, dst + n, by omega, by omega, by omega, ?_, ?_, rfl⟩
      · rw [show dst + n + (pos - dst) - dst = n + (pos - dst) by omega]
      · rw [Nat.mod_eq_of_lt (by omega)]
    · simp only [if_neg hlt]
      refine Or.inr ⟨pos, n, dst, by omega, by omega, hdst, ?_, rfl, rfl⟩
      rw [show dst + n - pos = n + (dst - pos) by omega]

theorem vecMove32_of_fits (h : MoveFits pos n dst) :
    vecMove32 l pos n dst = some (moveBlock l pos n dst) := by
  rw [← vecMove_eq_moveBlock hpos hdst]
  obtain ⟨heq, -⟩ | ⟨pos', n', dst', hn, hlt, hle, hfits, heq, hmove⟩ :=
    vecMove32_cases hpos hdst hl
  · exact heq
  · rw [heq, hmove, vecMoveBack_of_fits hn hlt hle hl (hfits.mp h)]

theorem exists_vecMove32 : ∃ r, vecMove32 l pos n dst = some r := by
  obtain ⟨heq, -⟩ | ⟨pos', n', dst', -, hlt, hle, -, heq, -⟩ := vecMove32_cases hpos hdst hl
  · exact ⟨_, heq⟩
  · exact ⟨_, heq.trans (vecMoveBack_eq hlt hle hl)⟩

end

theorem fits_of_vecMove32 {L : ℕ} (hL : L < 2 ^ 32) (hpos : pos + n ≤ L) (hdst : dst + n ≤ L)
    (h : vecMove32 (List.range L) pos n dst = some (moveBlock (List.range L) pos n dst)) :
    MoveFits pos n dst := by
  have hlen := length_range (n := L)
  rw [← hlen] at hL hpos hdst
  rw [← vecMove_eq_moveBlock hpos hdst] at h
  obtain ⟨-, hfits⟩ | ⟨pos', n', dst', hn, hlt, hle, hfits, heq, hmove⟩ :=
    vecMove32_cases hpos hdst hL
  · exact hfits
  · rw [heq, hmove] at h
    rw [hlen] at h hle hL
    exact hfits.mpr (fits_of_vecMoveBack hn hlt hle hL h)

end Wrap

/-- A move within the vector ends, and its assertion holds. It moves the block in every vector of
the length, exactly if the cycles fit. -/
theorem vecMove32_moves_iff {L pos n dst : ℕ} (hL : L < 2 ^ 32) (hpos : pos + n ≤ L)
    (hdst : dst + n ≤ L) :
    (∀ (α : Type) [Inhabited α] (l : List α), l.length = L → ∃ r, vecMove32 l pos n dst = some r) ∧
    ((∀ (α : Type) [Inhabited α] (l : List α), l.length = L →
      vecMove32 l pos n dst = some (moveBlock l pos n dst)) ↔ MoveFits pos n dst) := by
  refine ⟨?_, ?_, ?_⟩
  · rintro α _ l rfl
    exact exists_vecMove32 hpos hdst hL
  · intro h
    exact fits_of_vecMove32 hL hpos hdst (h ℕ (List.range L) List.length_range)
  · rintro hfits α _ l rfl
    exact vecMove32_of_fits hpos hdst hL hfits

/-- Two elements move behind the two which follow them. -/
theorem vecMove32_small : vecMove32 [0, 1, 2, 3, 4] 1 2 3 = some [0, 3, 4, 1, 2] :=
  (vecMove32_moves_iff (L := 5) (by decide) (by decide) (by decide)).2.mpr
    (by simp [MoveFits, CyclesFit]) ℕ [0, 1, 2, 3, 4] rfl

/-- In a vector with `2 ^ 31 + 1` elements, the sum `i + n` wraps around when all but the last
one are moved by one. -/
theorem vecMove32_wraps : ∃ r, vecMove32 (List.range (2 ^ 31 + 1)) 0 (2 ^ 31) 1 = some r ∧
    r ≠ moveBlock (List.range (2 ^ 31 + 1)) 0 (2 ^ 31) 1 := by
  have hL : 2 ^ 31 + 1 < 2 ^ 32 := by norm_num
  have hpos : 0 + 2 ^ 31 ≤ 2 ^ 31 + 1 := by norm_num
  have hdst : 1 + 2 ^ 31 ≤ 2 ^ 31 + 1 := by norm_num
  obtain ⟨r, hr⟩ : ∃ r, vecMove32 (List.range (2 ^ 31 + 1)) 0 (2 ^ 31) 1 = some r := by
    apply exists_vecMove32 <;> rwa [List.length_range]
  refine ⟨r, hr, ?_⟩
  intro heq
  rw [heq] at hr
  have hfits := fits_of_vecMove32 hL hpos hdst hr
  norm_num [MoveFits, CyclesFit] at hfits

end ThingsDB.Util
