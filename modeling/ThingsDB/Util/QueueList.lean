import ThingsDB.Lib.Refine
import ThingsDB.Util.Queue

/-!
# The circular queue is a list

Every call on a queue does to the list it stands for what the same call does to a list. This
fails for the removal of an element from a full queue which starts behind its last slot.
-/

namespace ThingsDB.Util.Queue

open Ring List

variable {α : Type} {q : Queue α} {l : List α} {a : α} {idx : ℕ}

structure Is (q : Queue α) (l : List α) : Prop where
  len : q.n = l.length
  holds : Holds q.data q.sz q.s l

section Walk

theorem walkReverse_apply (lo hi p : ℕ) (d : Slots α) :
    walkReverse lo hi d p = if lo < p ∧ p ≤ hi then d (p - 1) else d p := by
  induction hi generalizing d with
  | zero =>
    rw [walkReverse, if_neg (by omega)]
  | succ x ih =>
    rw [walkReverse]
    split_ifs with hlo hp hp
    · rw [ih]
      rcases Nat.lt_or_ge x p with hx | hx
      · obtain rfl : p = x + 1 := by omega
        rw [if_neg (by omega), Slots.set_self, Nat.add_sub_cancel]
      · rw [if_pos ⟨hp.1, hx⟩, Slots.set_of_ne _ _ (by omega)]
    · rw [ih, if_neg (by omega), Slots.set_of_ne _ _ (by omega)]
    · omega
    · rfl

theorem walkForward_apply (k x p : ℕ) (hx : 0 < x) (d : Slots α) :
    walkForward k x d p = if x ≤ p + 1 ∧ p + 1 < x + k then d (p + 1) else d p := by
  induction k generalizing x d with
  | zero => rw [walkForward, if_neg (by omega)]
  | succ k ih =>
    rw [walkForward, ih (x + 1) (by omega)]
    split_ifs with h₁ h₂ h₂
    · rw [Slots.set_of_ne _ _ (by omega)]
    · omega
    · obtain rfl : x = p + 1 := by omega
      rw [Nat.add_sub_cancel, Slots.set_self]
    · rw [Slots.set_of_ne _ _ (by omega)]

end Walk

section Space

/-- With the first slots copied behind the old ones, nothing wraps around. -/
theorem is_resize (h : q.Is l) {sz : ℕ} (hsz : q.sz + q.s ≤ sz) : (q.resize sz).Is l := by
  have hs := h.holds.start
  refine ⟨h.len, ?_, ?_, fun i b hb => ?_⟩
  · change q.s ≤ sz
    omega
  · change l.length ≤ sz
    have hfits := h.holds.fits
    omega
  · have hi := h.holds.lt_of_getElem? hb
    have hget := h.holds.get i b hb
    have hnew : slot sz q.s i = q.s + i := slot_of_lt (by omega)
    change q.data.memmove q.sz 0 q.s (slot sz q.s i) = b
    rw [hnew, Slots.memmove]
    rcases slot_cases hs hi with ⟨hlt, heq⟩ | ⟨hge, heq⟩
    · rw [if_neg (by omega), ← heq]
      exact hget
    · rw [if_pos (by omega), Nat.zero_add, ← heq]
      exact hget

theorem is_ensure (h : q.Is l) : q.ensure.Is l ∧ l.length < q.ensure.sz := by
  have hs := h.holds.start
  have hfits := h.holds.fits
  have hlen := h.len
  unfold ensure
  split_ifs with hfull
  · refine ⟨is_resize h ?_, ?_⟩
    · split_ifs <;> omega
    · change l.length < (if q.sz = 0 then 1 else q.sz) * 2
      split_ifs <;> omega
  · exact ⟨h, by omega⟩

theorem is_reserve (h : q.Is l) (n : ℕ) : (q.reserve n).Is l ∧ l.length + n ≤ (q.reserve n).sz := by
  have hs := h.holds.start
  have hlen := h.len
  unfold reserve
  split_ifs with hlt hmore
  · exact ⟨is_resize h (by omega), by change l.length + n ≤ q.n + n; omega⟩
  · exact ⟨is_resize h (by omega), by change l.length + n ≤ q.sz * 2; omega⟩
  · exact ⟨h, by omega⟩

theorem is_shrink (h : q.Is l) : q.shrink.Is l := by
  have hs := h.holds.start
  have hlen := h.len
  have hfits := h.holds.fits
  unfold shrink
  by_cases hfull : q.n = q.sz
  · rw [if_pos hfull]
    exact h
  · rw [if_neg hfull]
    -- the elements from the first slot on, which are not wrapped around
    generalize hn : (if q.sz - q.s ≤ q.n then q.sz - q.s else q.n) = n
    have hle : n ≤ q.n := by split_ifs at hn <;> omega
    refine ⟨h.len, ?_, ?_, fun i b hb => ?_⟩
    · change q.n - n ≤ q.n
      omega
    · exact hlen.symm.le
    · have hi := (List.getElem?_eq_some_iff.mp hb).1
      have hget := h.holds.get i b hb
      change q.data.memmove (q.n - n) q.s n (slot q.n (q.n - n) i) = b
      rw [← hget, Slots.memmove]
      rcases slot_cases hs (show i < q.sz by omega) with ⟨hlt, heq⟩ | ⟨hge, heq⟩ <;>
        rcases slot_cases (show q.n - n ≤ q.n by omega) (show i < q.n by omega) with
          ⟨hlt', heq'⟩ | ⟨hge', heq'⟩ <;> rw [heq, heq']
      · rw [if_pos (by omega)]
        congr 1
        omega
      · split_ifs at hn <;> omega
      · split_ifs at hn <;> omega
      · rw [if_neg (by omega)]
        congr 1
        split_ifs at hn <;> omega

end Space

section Ends

theorem slot_before {sz s : ℕ} (hs : s ≤ sz) (hsz : 0 < sz) :
    (if slot sz s 1 ≠ 0 then slot sz s 1 else sz) - 1 = slot sz s 0 := by
  rcases Nat.lt_or_ge 1 sz with hlt | hle
  · rcases slot_cases hs hlt with ⟨_, h₁⟩ | ⟨_, h₁⟩ <;>
      rcases slot_cases hs hsz with ⟨_, h₀⟩ | ⟨_, h₀⟩ <;> rw [h₁, h₀] <;> split_ifs <;> omega
  · obtain rfl : sz = 1 := by omega
    simp [slot, Nat.mod_one]

theorem is_push (h : q.Is l) (a : α) : (q.push a).Is (l ++ [a]) := by
  obtain ⟨h, hlt⟩ := is_ensure h
  unfold push
  generalize q.ensure = q at h hlt
  have hslot : q.i q.n = slot q.sz q.s l.length := by rw [i, h.len]
  refine ⟨by simp [pushUnsafe, h.len], ?_⟩
  refine h.holds.concat hlt ?_ fun p hp => ?_
  · exact hslot ▸ Slots.set_self _ _ _
  · exact Slots.set_of_ne _ _ (hslot ▸ hp)

theorem is_unshift (h : q.Is l) (a : α) : (q.unshift a).Is (a :: l) := by
  obtain ⟨h, hlt⟩ := is_ensure h
  unfold unshift
  generalize q.ensure = q at h hlt
  refine ⟨by simp [unshiftUnsafe, h.len], ?_⟩
  refine h.holds.cons hlt ?_ (Slots.set_self _ _ _) fun p hp => Slots.set_of_ne _ _ hp
  change (if q.s ≠ 0 then q.s else q.sz) - 1 + 1 = q.s ∨
    q.s = 0 ∧ (if q.s ≠ 0 then q.s else q.sz) - 1 + 1 = q.sz
  split_ifs <;> omega

theorem is_pop (h : q.Is l) : q.pop.1.Is l.dropLast ∧ q.pop.2 = l.getLast? := by
  have hlen := h.len
  unfold pop
  split_ifs with hn
  · refine ⟨⟨by simp [hlen], ?_⟩, ?_⟩
    · rw [dropLast_eq_take]
      exact h.holds.take _
    · rw [getLast?_eq_getElem?, h.holds.getElem?_eq (by omega), i, hlen]
  · obtain rfl : l = [] := eq_nil_of_length_eq_zero (by omega)
    exact ⟨h, rfl⟩

theorem is_shift (h : q.Is l) : q.shift.1.Is l.tail ∧ q.shift.2 = l.head? := by
  have hlen := h.len
  have hs := h.holds.start
  unfold shift
  cases l with
  | nil =>
    have hzero : q.n = 0 := hlen
    rw [if_neg (by simp [hzero])]
    exact ⟨h, rfl⟩
  | cons a l =>
    have hn : q.n = l.length + 1 := hlen
    have hfits : l.length + 1 ≤ q.sz := h.holds.fits
    rw [if_pos (by omega)]
    refine ⟨⟨by simp [hn], h.holds.tail⟩, ?_⟩
    have hget : q.data (slot q.sz q.s 0) = a := h.holds.get 0 a rfl
    rw [head?_cons, ← hget]
    exact congrArg (fun p => some (q.data p)) (slot_before hs (by omega))

end Ends

section Inside

/-- The elements from an index on are moved to the next slots, or those before it to the
previous slots. -/
theorem is_insertUnsafe (h : q.Is l) (hidx : 0 < idx) (hlt : idx < l.length) (hsz : l.length < q.sz)
    (a : α) : (q.insertUnsafe idx a).Is (l.insertIdx idx a) := by
  have hs := h.holds.start
  have hn : (l.insertIdx idx a).length = l.length + 1 :=
    length_insertIdx_of_le_length (by omega) a
  have hi := slot_cases hs (show idx < q.sz by omega)
  have he := slot_cases hs hsz
  have hget := h.holds.get
  rw [insertUnsafe, i, i, h.len]
  by_cases hwalk : slot q.sz q.s idx < slot q.sz q.s l.length
  · rw [if_pos hwalk]
    refine ⟨hn.symm, hs, hn.trans_le hsz, fun k b hb => ?_⟩
    change (walkReverse (slot q.sz q.s idx) (slot q.sz q.s l.length) q.data).set
      (slot q.sz q.s idx) a (slot q.sz q.s k) = b
    have hk : k < l.length + 1 := hn ▸ (List.getElem?_eq_some_iff.mp hb).1
    have hslot := slot_cases hs (show k < q.sz by omega)
    rw [getElem?_insertIdx] at hb
    split_ifs at hb with hbefore hat
    · rw [Slots.set_of_ne _ _ (by omega), walkReverse_apply, if_neg (by omega)]
      exact hget k b hb
    · subst hat
      exact (Slots.set_self _ _ _).trans (Option.some.inj hb)
    · have hprev := slot_cases hs (show k - 1 < q.sz by omega)
      have heq : slot q.sz q.s (k - 1) = slot q.sz q.s k - 1 := by omega
      rw [Slots.set_of_ne _ _ (by omega), walkReverse_apply, if_pos (by omega), ← heq]
      exact hget (k - 1) b hb
  · rw [if_neg hwalk]
    have hs' : q.s - 1 ≤ q.sz := by omega
    refine ⟨hn.symm, hs', hn.trans_le hsz, fun k b hb => ?_⟩
    change (walkForward (slot q.sz q.s idx - q.s) q.s q.data).set
      (slot q.sz q.s idx - 1) a (slot q.sz (q.s - 1) k) = b
    have hk : k < l.length + 1 := hn ▸ (List.getElem?_eq_some_iff.mp hb).1
    have hslot := slot_cases hs' (show k < q.sz by omega)
    rw [getElem?_insertIdx] at hb
    split_ifs at hb with hbefore hat
    · have hold := slot_cases hs (show k < q.sz by omega)
      have heq : slot q.sz q.s k = slot q.sz (q.s - 1) k + 1 := by omega
      rw [Slots.set_of_ne _ _ (by omega), walkForward_apply _ _ _ (by omega), if_pos (by omega),
        ← heq]
      exact hget k b hb
    · have heq : slot q.sz (q.s - 1) k = slot q.sz q.s idx - 1 := by omega
      rw [heq]
      exact (Slots.set_self _ _ _).trans (Option.some.inj hb)
    · have hold := slot_cases hs (show k - 1 < q.sz by omega)
      have heq : slot q.sz q.s (k - 1) = slot q.sz (q.s - 1) k := by omega
      rw [Slots.set_of_ne _ _ (by omega), walkForward_apply _ _ _ (by omega), if_neg (by omega),
        ← heq]
      exact hget (k - 1) b hb

theorem is_insert (h : q.Is l) (idx : ℕ) (a : α) :
    (q.insert idx a).Is (l.insertIdx (min idx l.length) a) := by
  have hlen := h.len
  unfold insert
  split_ifs with hzero hlast
  · obtain rfl := hzero
    rw [Nat.zero_min, insertIdx_zero]
    exact is_unshift h a
  · rw [Nat.min_eq_right (by omega), insertIdx_length_self]
    exact is_push h a
  · obtain ⟨h, hlt⟩ := is_ensure h
    rw [Nat.min_eq_left (by omega)]
    exact is_insertUnsafe h (by omega) (by omega) hlt a

/-- The removals which are done right: the queue does not start behind its last slot while it
is full, or the element is the last one. -/
def Removable (q : Queue α) (idx : ℕ) : Prop := ¬(q.s = q.sz ∧ q.n = q.sz ∧ idx + 1 < q.n)

theorem is_remove (h : q.Is l) (hsafe : q.Removable idx) :
    (q.remove idx).1.Is (l.eraseIdx idx) ∧ (q.remove idx).2 = l[idx]? := by
  have hs := h.holds.start
  have hlen := h.len
  have hget := h.holds.get
  have hfits := h.holds.fits
  unfold Removable at hsafe
  unfold remove
  by_cases hout : q.n ≤ idx
  · rw [if_pos hout, eraseIdx_of_length_le (by omega), getElem?_eq_none (by omega)]
    exact ⟨h, rfl⟩
  · rw [if_neg hout, h.holds.getElem?_eq (show idx < l.length by omega), i, i, hlen]
    have hi := slot_cases hs (show idx < q.sz by omega)
    have hn : (l.eraseIdx idx).length = l.length - 1 := length_eraseIdx_of_lt (by omega)
    by_cases hhead : q.s ≤ slot q.sz q.s idx
    · simp only [if_pos hhead]
      refine ⟨⟨hn.symm, ?_, ?_, fun k b hb => ?_⟩, trivial⟩
      · change q.s + 1 ≤ q.sz
        omega
      · rw [hn]
        change l.length - 1 ≤ q.sz
        omega
      · change walkReverse q.s (slot q.sz q.s idx) q.data (slot q.sz (q.s + 1) k) = b
        have hk : k < l.length - 1 := hn ▸ (List.getElem?_eq_some_iff.mp hb).1
        have hslot := slot_cases (show q.s + 1 ≤ q.sz by omega) (show k < q.sz by omega)
        rw [getElem?_eraseIdx] at hb
        rw [walkReverse_apply]
        split_ifs at hb with hbefore
        · have hold := slot_cases hs (show k < q.sz by omega)
          have heq : slot q.sz q.s k = slot q.sz (q.s + 1) k - 1 := by omega
          rw [if_pos (by omega), ← heq]
          exact hget k b hb
        · have hold := slot_cases hs (show k + 1 < q.sz by omega)
          have heq : slot q.sz q.s (k + 1) = slot q.sz (q.s + 1) k := by omega
          rw [if_neg (by omega), ← heq]
          exact hget (k + 1) b hb
    · -- the slot behind the last element, which is wrapped around
      have he : slot q.sz q.s l.length = q.s + l.length - q.sz ∨
          slot q.sz q.s l.length = 0 ∧ idx + 1 = l.length := by
        by_cases hfull : q.s + l.length < 2 * q.sz
        · exact Or.inl (slot_of_le (by omega) hfull)
        · refine Or.inr ⟨?_, by omega⟩
          rw [slot, show q.s + l.length = 2 * q.sz by omega]
          exact Nat.mul_mod_left 2 q.sz
      simp only [if_neg hhead]
      refine ⟨⟨hn.symm, hs, ?_, fun k b hb => ?_⟩, trivial⟩
      · rw [hn]
        change l.length - 1 ≤ q.sz
        omega
      · change walkForward (slot q.sz q.s l.length - (slot q.sz q.s idx + 1))
          (slot q.sz q.s idx + 1) q.data (slot q.sz q.s k) = b
        have hk : k < l.length - 1 := hn ▸ (List.getElem?_eq_some_iff.mp hb).1
        have hslot := slot_cases hs (show k < q.sz by omega)
        rw [getElem?_eraseIdx] at hb
        rw [walkForward_apply _ _ _ (by omega)]
        split_ifs at hb with hbefore
        · rw [if_neg (by omega)]
          exact hget k b hb
        · have hold := slot_cases hs (show k + 1 < q.sz by omega)
          have heq : slot q.sz q.s (k + 1) = slot q.sz q.s k + 1 := by omega
          rw [if_pos (by omega), ← heq]
          exact hget (k + 1) b hb

end Inside

section Each

theorem eachFrom_unwrapped {fuel v e : ℕ} (he : e ≤ q.sz) (hv : v ≤ e) (hfuel : e - v < fuel) :
    q.eachFrom fuel v e = some ((range' v (e - v)).map q.data) := by
  induction fuel generalizing v with
  | zero => omega
  | succ fuel ih =>
    rw [eachFrom]
    rcases Nat.lt_or_ge v e with hlt | hge
    · rw [if_pos (by omega), ih (by omega) (by omega)]
      obtain ⟨k, hk⟩ : ∃ k, e - v = k + 1 := ⟨e - v - 1, by omega⟩
      rw [hk, show e - (v + 1) = k by omega, range'_succ]
      rfl
    · rw [if_neg (by omega), if_neg (by omega), show e - v = 0 by omega]
      rfl

theorem eachFrom_wrapped {fuel v e : ℕ} (he : q.sz < e) (hle : e ≤ 2 * q.sz) (hv : v ≤ q.sz)
    (hfuel : e - v < fuel) : q.eachFrom fuel v e =
      some ((range' v (q.sz - v)).map q.data ++ (range' 0 (e - q.sz)).map q.data) := by
  induction fuel generalizing v with
  | zero => omega
  | succ fuel ih =>
    rw [eachFrom]
    rcases Nat.lt_or_ge v q.sz with hlt | hge
    · rw [if_pos (by omega), ih (by omega) (by omega)]
      obtain ⟨k, hk⟩ : ∃ k, q.sz - v = k + 1 := ⟨q.sz - v - 1, by omega⟩
      rw [hk, show q.sz - (v + 1) = k by omega, range'_succ]
      rfl
    · obtain ⟨k, hk⟩ : ∃ k, e - q.sz = k + 1 := ⟨e - q.sz - 1, by omega⟩
      rw [if_neg (by omega), if_pos he, eachFrom_unwrapped (by omega) (by omega) (by omega),
        show q.sz - v = 0 by omega, hk, range'_succ, Nat.add_sub_cancel]
      rfl

/-- The loop ends, and the values of the list are visited in order. -/
theorem each_eq (h : q.Is l) {fuel : ℕ} (hfuel : q.n < fuel) : q.each fuel = some l := by
  have hs := h.holds.start
  have hlen := h.len
  have hfits := h.holds.fits
  have hrange : ∀ v n k, k < n → ((range' v n).map q.data)[k]? = some (q.data (v + k)) := by
    intro v n k hk
    rw [getElem?_map, getElem?_range' hk, Nat.one_mul]
    rfl
  rw [each]
  rcases Nat.lt_or_ge q.sz (q.s + q.n) with hwrap | hwrap
  · rw [eachFrom_wrapped hwrap (by omega) hs (by omega)]
    refine congrArg some (ext_getElem? fun k => ?_)
    by_cases hk : k < l.length
    · rw [h.holds.getElem?_eq hk, getElem?_append, length_map, length_range']
      rcases slot_cases hs (show k < q.sz by omega) with ⟨hlt, heq⟩ | ⟨hge, heq⟩
      · rw [if_pos (by omega), hrange _ _ _ (by omega), heq]
      · rw [if_neg (by omega), hrange _ _ _ (by omega), heq]
        congr 2
        omega
    · rw [getElem?_eq_none (by simp; omega), getElem?_eq_none (by omega)]
  · rw [eachFrom_unwrapped hwrap (by omega) (by omega)]
    refine congrArg some (ext_getElem? fun k => ?_)
    by_cases hk : k < l.length
    · rw [h.holds.getElem?_eq hk, hrange _ _ _ (by omega), slot_of_lt (by omega)]
    · rw [getElem?_eq_none (by simp; omega), getElem?_eq_none (by omega)]

end Each

section Extend

theorem is_extend (h : q.Is l) {xs : List α} (hxs : xs ≠ []) : (q.extend xs).Is (l ++ xs) := by
  have hpos : 0 < xs.length := length_pos_iff.mpr hxs
  obtain ⟨h, hfits⟩ := is_reserve h xs.length
  unfold extend
  generalize q.reserve xs.length = q at h hfits
  have hs := h.holds.start
  have hlen := h.len
  have hget := h.holds.get
  simp only [i, hlen]
  have hnext := slot_cases hs (show l.length < q.sz by omega)
  -- what is written from a slot on
  have hwrite : ∀ (d : Slots α) (p : ℕ) (ys : List α) (k : ℕ) (b : α), ys[k]? = some b →
      d.write p ys (p + k) = b := by
    intro d p ys k b hb
    rw [Slots.write, if_pos (by omega), Nat.add_sub_cancel_left, getD_eq_getElem?_getD, hb]
    rfl
  have hkeep : ∀ (d : Slots α) (p : ℕ) (ys : List α) (k : ℕ), k < p ∨ p + ys.length ≤ k →
      d.write p ys k = d k := by
    intro d p ys k hk
    rw [Slots.write]
    split_ifs with hle
    · rw [getD_eq_getElem?_getD, getElem?_eq_none (by omega)]
      rfl
    · rfl
  by_cases hpart : slot q.sz q.s l.length < q.s ∨ xs.length ≤ q.sz - slot q.sz q.s l.length
  · rw [if_pos hpart]
    refine ⟨by simp, hs, by simpa using hfits, fun k b hb => ?_⟩
    change q.data.write (slot q.sz q.s l.length) xs (slot q.sz q.s k) = b
    have hk : k < (l ++ xs).length := (List.getElem?_eq_some_iff.mp hb).1
    rw [length_append] at hk
    have hslot := slot_cases hs (show k < q.sz by omega)
    rcases Nat.lt_or_ge k l.length with hlt | hge
    · rw [getElem?_append_left hlt] at hb
      rw [hkeep _ _ _ _ (by omega)]
      exact hget k b hb
    · rw [getElem?_append_right hge] at hb
      rw [show slot q.sz q.s k = slot q.sz q.s l.length + (k - l.length) by omega]
      exact hwrite _ _ _ _ _ hb
  · rw [if_neg hpart]
    refine ⟨by simp, hs, by simpa using hfits, fun k b hb => ?_⟩
    generalize hm : q.sz - slot q.sz q.s l.length = m at hpart
    change ((q.data.write (slot q.sz q.s l.length) (xs.take m)).write 0 (xs.drop m))
      (slot q.sz q.s k) = b
    have hk : k < (l ++ xs).length := (List.getElem?_eq_some_iff.mp hb).1
    rw [length_append] at hk
    have htake : (xs.take m).length = m := by
      rw [length_take]
      omega
    have hdrop : (xs.drop m).length = xs.length - m := length_drop
    have hslot := slot_cases hs (show k < q.sz by omega)
    rcases Nat.lt_or_ge k l.length with hlt | hge
    · rw [getElem?_append_left hlt] at hb
      rw [hkeep _ _ _ _ (by omega), hkeep _ _ _ _ (by omega)]
      exact hget k b hb
    · rw [getElem?_append_right hge] at hb
      rcases Nat.lt_or_ge (k - l.length) m with hfirst | hsecond
      · rw [hkeep _ _ _ _ (by omega),
          show slot q.sz q.s k = slot q.sz q.s l.length + (k - l.length) by omega]
        refine hwrite _ _ _ _ _ ?_
        rw [getElem?_take_of_lt hfirst]
        exact hb
      · rw [show slot q.sz q.s k = 0 + (k - l.length - m) by omega]
        refine hwrite _ _ _ _ _ ?_
        rw [getElem?_drop, show m + (k - l.length - m) = k - l.length by omega]
        exact hb

end Extend

section Ops

variable [DecidableEq α]

theorem rmval_eq (h : q.Is l) (a : α) :
    q.rmval a = if a ∈ l then q.remove (l.idxOf a) else (q, none) := by
  rw [rmval, each_eq h (Nat.lt_succ_self _), Option.bind_some]
  split_ifs with hmem
  · have hidx : l.findIdx? (fun x => decide (x = a)) = some (l.idxOf a) := by
      rw [findIdx?_eq_some_iff_findIdx_eq]
      refine ⟨idxOf_lt_length_of_mem hmem, ?_⟩
      rw [idxOf]
      exact congrArg (findIdx · l) (funext fun x => (beq_eq_decide x a).symm)
    rw [hidx]
  · have hnone : l.findIdx? (fun x => decide (x = a)) = none := by
      rw [findIdx?_eq_none_iff]
      rintro x hx
      simp only [decide_eq_false_iff_not]
      rintro rfl
      exact hmem hx
    rw [hnone]

/-- The calls which are done right: nothing is removed from the inside of a full queue which
starts behind its last slot, and a queue is extended with something. -/
def Safe (q : Queue α) : QueueOp α → Prop
  | .remove idx => q.Removable idx
  | .rmval a => q.Removable (((q.each (q.n + 1)).getD []).idxOf a)
  | .extend xs => xs ≠ []
  | _ => True

instance (q : Queue α) (idx : ℕ) : Decidable (q.Removable idx) :=
  inferInstanceAs (Decidable (¬_))

instance (q : Queue α) : ∀ op, Decidable (q.Safe op)
  | .remove idx => inferInstanceAs (Decidable (q.Removable idx))
  | .rmval _ => inferInstanceAs (Decidable (q.Removable _))
  | .extend xs => inferInstanceAs (Decidable (xs ≠ []))
  | .push _ | .unshift _ | .insert _ _ | .pop | .shift | .reserve _ | .shrink => .isTrue trivial

theorem is_step {op : QueueOp α} (h : q.Is l) (hsafe : q.Safe op) :
    (q.step op).1.Is (op.onList l).1 ∧ (q.step op).2 = (op.onList l).2 := by
  cases op with
  | push a => exact ⟨is_push h a, rfl⟩
  | unshift a => exact ⟨is_unshift h a, rfl⟩
  | insert idx a => exact ⟨is_insert h idx a, rfl⟩
  | pop => exact is_pop h
  | shift => exact is_shift h
  | remove idx => exact is_remove h hsafe
  | rmval a =>
    rw [step, QueueOp.onList, rmval_eq h a]
    split_ifs with hmem
    · have hremovable : q.Removable (l.idxOf a) := by
        rw [Safe, each_eq h (Nat.lt_succ_self _)] at hsafe
        exact hsafe
      rw [erase_eq_eraseIdx_of_idxOf rfl, ← getElem?_idxOf hmem]
      exact is_remove h hremovable
    · rw [erase_of_not_mem hmem]
      exact ⟨h, rfl⟩
  | reserve n => exact ⟨(is_reserve h n).1, rfl⟩
  | extend xs => exact ⟨is_extend h hsafe, rfl⟩
  | shrink => exact ⟨is_shrink h, rfl⟩

omit [DecidableEq α] in
theorem is_new (mem : Slots α) (sz : ℕ) : (new mem sz).Is [] := ⟨rfl, .nil (Nat.zero_le sz)⟩

/-- After any calls on a new queue which are done right, the queue has the values of the list
after the same calls, and the calls have returned the same values. -/
theorem calls_on_list (mem : Slots α) (sz : ℕ) (ops : List (QueueOp α))
    (hsafe : Refine.Along step Safe (new mem sz) ops) :
    let q := (Refine.run step (new mem sz) ops).1
    let l := (Refine.run QueueOp.onList [] ops).1
    (List.range q.n).map q.get = l ∧ (∀ fuel, q.n < fuel → q.each fuel = some l) ∧
      (Refine.run step (new mem sz) ops).2 = (Refine.run QueueOp.onList [] ops).2 := by
  have hstep : ∀ (q : Queue α) (l : List α) (op : QueueOp α), q.Is l → q.Safe op →
      (q.step op).1.Is (op.onList l).1 ∧ (q.step op).2 = (op.onList l).2 :=
    fun _ _ _ h hsafe => is_step h hsafe
  obtain ⟨his, hanswers⟩ := Refine.run_refines hstep (is_new mem sz) hsafe
  refine ⟨?_, fun fuel hfuel => each_eq his hfuel, hanswers⟩
  rw [his.len]
  exact his.holds.map_range

end Ops

section Example

def wrapOps : List (QueueOp ℕ) := [.push 1, .push 2, .shift, .push 3, .remove 0, .push 4]

/-- The queue is full then, and its first value stays when it is removed. -/
theorem remove_keeps_first :
    Refine.run QueueOp.onList [] (wrapOps ++ [.remove 0]) =
      ([4], [none, none, some 1, none, some 2, none, some 3]) ∧
    (Refine.run step (new (fun _ => 0) 2) (wrapOps ++ [.remove 0])).1.each 2 = some [3] ∧
    (Refine.run step (new (fun _ => 0) 2) (wrapOps ++ [.remove 0])).1.get 0 = 3 := by
  decide

theorem wrapOps_on_list :
    (∀ fuel, 2 < fuel → (Refine.run step (new (fun _ => 0) 2) wrapOps).1.each fuel = some [3, 4]) ∧
      (Refine.run step (new (fun _ => 0) 2) wrapOps).2 =
        [none, none, some 1, none, some 2, none] := by
  have hsafe : Refine.Along step Safe (new (fun _ => 0) 2) wrapOps := by decide
  exact (calls_on_list _ 2 wrapOps hsafe).2

end Example

end ThingsDB.Util.Queue
