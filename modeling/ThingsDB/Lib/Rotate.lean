import Mathlib.Tactic

/-!
# Rotation in place

The slots of a range are rotated by a distance `n` with one spare cell: from each
start below the greatest common divisor, the elements of one cycle are pulled to
their new slot until the cycle is back at its start. The cycles are the classes
modulo the divisor, so every slot is written once. With another function for the
next slot this is a rotation only if the cycles are the same.
-/

namespace Rotate

open Function

variable {α : Type*}

section Walk

/-- Pull `m` times the element of the next slot, and end at the last slot read. -/
def walk (next : ℕ → ℕ) (pos : ℕ) : ℕ → (ℕ → α) → ℕ → (ℕ → α) × ℕ
  | 0, b, i => (b, i)
  | m + 1, b, i => walk next pos m (Function.update b (i + pos) (b (next i + pos))) (next i)

def round (next : ℕ → ℕ) (pos m : ℕ) (b : ℕ → α) (i : ℕ) : ℕ → α :=
  let r := walk next pos m b i
  Function.update r.1 (r.2 + pos) (b (i + pos))

/-- The walks of the starts below `g`, the largest first. -/
def rounds (next : ℕ → ℕ) (pos m : ℕ) : ℕ → (ℕ → α) → ℕ → α
  | 0, b => b
  | g + 1, b => rounds next pos m g (round next pos m b g)

def turn (n range i : ℕ) : ℕ := (i + n) % range

def rotate (pos n range : ℕ) : (ℕ → α) → ℕ → α :=
  rounds (turn n range) pos (range / range.gcd n - 1) (range.gcd n)

variable {next next' : ℕ → ℕ} {pos m i p : ℕ} {b : ℕ → α}

theorem walk_snd : (walk next pos m b i).2 = next^[m] i := by
  induction m generalizing b i with
  | zero => rfl
  | succ m ih => rw [walk, ih, iterate_succ_apply]

theorem walk_of_forall_ne (h : ∀ t < m, p ≠ next^[t] i + pos) :
    (walk next pos m b i).1 p = b p := by
  induction m generalizing b i with
  | zero => rfl
  | succ m ih =>
    rw [walk, ih fun t ht => h (t + 1) (Nat.succ_lt_succ ht)]
    exact update_of_ne (h 0 m.succ_pos) _ _

variable (pos) in
theorem walk_apply (hinj : ∀ t ≤ m, ∀ u ≤ m, next^[t] i = next^[u] i → t = u) {t : ℕ}
    (ht : t < m) : (walk next pos m b i).1 (next^[t] i + pos) = b (next^[t + 1] i + pos) := by
  induction m generalizing b i t with
  | zero => exact absurd ht t.not_lt_zero
  | succ m ih =>
    rw [walk]
    cases t with
    | zero =>
      rw [walk_of_forall_ne]
      · exact update_self _ _ _
      · intro u hu heq
        exact absurd (hinj 0 (by omega) (u + 1) (by omega) (Nat.add_right_cancel heq)) (by omega)
    | succ t =>
      have hne : next^[t + 1 + 1] i + pos ≠ i + pos := fun heq =>
        absurd (hinj (t + 1 + 1) (by omega) 0 (by omega) (Nat.add_right_cancel heq)) (by omega)
      refine Eq.trans (ih ?_ (Nat.lt_of_succ_lt_succ ht)) (update_of_ne hne _ _)
      intro t ht u hu h
      exact Nat.succ.inj (hinj (t + 1) (by omega) (u + 1) (by omega) h)

theorem round_of_forall_ne (h : ∀ t ≤ m, p ≠ next^[t] i + pos) : round next pos m b i p = b p := by
  rw [round, walk_snd, update_of_ne (h m le_rfl), walk_of_forall_ne fun t ht => h t ht.le]

theorem rounds_of_forall_ne {g : ℕ} (h : ∀ s < g, ∀ t ≤ m, p ≠ next^[t] s + pos) :
    rounds next pos m g b p = b p := by
  induction g generalizing b with
  | zero => rfl
  | succ g ih =>
    rw [rounds, ih fun s hs => h s (by omega), round_of_forall_ne (h g (Nat.lt_succ_self g))]

theorem walk_congr (h : ∀ t < m, next (next'^[t] i) = next' (next'^[t] i)) :
    walk next pos m b i = walk next' pos m b i := by
  induction m generalizing b i with
  | zero => rfl
  | succ m ih =>
    have hi : next i = next' i := h 0 m.succ_pos
    rw [walk, walk, hi]
    exact ih fun t ht => h (t + 1) (Nat.succ_lt_succ ht)

theorem rounds_congr {g : ℕ} (h : ∀ s < g, ∀ t < m, next (next'^[t] s) = next' (next'^[t] s)) :
    rounds next pos m g b = rounds next' pos m g b := by
  induction g generalizing b with
  | zero => rfl
  | succ g ih =>
    rw [rounds, rounds, ih fun s hs => h s (by omega), round, round,
      walk_congr (h g (Nat.lt_succ_self g))]

end Walk

section Orbit

def orbit (n range i t : ℕ) : ℕ := (i + t * n) % range

variable {n range i : ℕ}

theorem orbit_zero (hi : i < range) : orbit n range i 0 = i := by
  rw [orbit, Nat.zero_mul, Nat.add_zero, Nat.mod_eq_of_lt hi]

theorem orbit_succ (t : ℕ) : orbit n range i (t + 1) = (orbit n range i t + n) % range := by
  rw [orbit, orbit, Nat.mod_add_mod, Nat.add_mul, Nat.one_mul, Nat.add_assoc]

theorem iterate_turn (hi : i < range) (t : ℕ) : (turn n range)^[t] i = orbit n range i t := by
  induction t with
  | zero => exact (orbit_zero hi).symm
  | succ t ih => rw [iterate_succ_apply', ih, orbit_succ, turn]

theorem orbit_lt (hr : 0 < range) (t : ℕ) : orbit n range i t < range := Nat.mod_lt _ hr

/-- A cycle closes after `range / gcd` steps and not before. -/
theorem orbit_injOn (hr : 0 < range) {t u : ℕ} (ht : t < range / range.gcd n)
    (hu : u < range / range.gcd n) (h : orbit n range i t = orbit n range i u) : t = u := by
  have hmul : t * n ≡ u * n [MOD range] := Nat.ModEq.add_left_cancel' i h
  exact Nat.ModEq.eq_of_lt_of_lt (Nat.ModEq.cancel_right_div_gcd hr hmul) ht hu

theorem dvd_div_gcd_mul : range ∣ range / range.gcd n * n := by
  rw [Nat.div_mul_right_comm (Nat.gcd_dvd_left range n),
    Nat.mul_div_assoc range (Nat.gcd_dvd_right range n)]
  exact Dvd.intro _ rfl

theorem orbit_close (hi : i < range) : orbit n range i (range / range.gcd n) = i := by
  rw [orbit, ← Nat.add_mod_mod, Nat.mod_eq_zero_of_dvd dvd_div_gcd_mul, Nat.add_zero,
    Nat.mod_eq_of_lt hi]

theorem orbit_mod_gcd (t : ℕ) : orbit n range i t % range.gcd n = i % range.gcd n := by
  rw [orbit, Nat.mod_mod_of_dvd _ (Nat.gcd_dvd_left range n)]
  exact Nat.ModEq.add_left i (Nat.modEq_zero_iff_dvd.mpr
    (Dvd.dvd.mul_left (Nat.gcd_dvd_right range n) t)) |>.trans (by rw [Nat.add_zero])

theorem exists_orbit_eq (hr : 0 < range) {k : ℕ} (hk : k < range)
    (hclass : k % range.gcd n = i % range.gcd n) :
    ∃ t < range / range.gcd n, orbit n range i t = k := by
  have hL : 0 < range / range.gcd n :=
    Nat.div_pos (Nat.gcd_le_left n hr) (Nat.gcd_pos_of_pos_left n hr)
  -- the class has a solution over the integers, by the coefficients of the divisor
  obtain ⟨q, hq⟩ := (Nat.modEq_iff_dvd.mp (show i ≡ k [MOD range.gcd n] from hclass.symm))
  have hbezout : (i : ℤ) + q * Nat.gcdB range n * n ≡ k [ZMOD range] := by
    apply Int.modEq_iff_dvd.mpr
    refine ⟨q * Nat.gcdA range n, ?_⟩
    have hg := Nat.gcd_eq_gcd_ab range n
    linear_combination hq + q * hg
  obtain ⟨t, ht⟩ : ∃ t : ℕ, (t : ℤ) = (q * Nat.gcdB range n) % range :=
    ⟨((q * Nat.gcdB range n) % range).toNat,
      Int.toNat_of_nonneg (Int.emod_nonneg _ (by exact_mod_cast hr.ne'))⟩
  have hmod : (i : ℤ) + t * n ≡ k [ZMOD range] :=
    (Int.ModEq.add_left _ (Int.ModEq.mul_right _ (ht ▸ Int.mod_modEq _ _))).trans hbezout
  have horbit : orbit n range i t = k := by
    have hnat : i + t * n ≡ k [MOD range] := Int.natCast_modEq_iff.mp (by exact_mod_cast hmod)
    rw [orbit, hnat, Nat.mod_eq_of_lt hk]
  refine ⟨t % (range / range.gcd n), Nat.mod_lt _ hL, ?_⟩
  rw [← horbit, orbit, orbit]
  apply Nat.ModEq.add_left i
  conv_rhs => rw [← Nat.mod_add_div t (range / range.gcd n), Nat.add_mul]
  refine ((Nat.ModEq.add_left _ (Nat.modEq_zero_iff_dvd.mpr ?_)).trans (by rw [Nat.add_zero])).symm
  rw [Nat.mul_right_comm]
  exact dvd_div_gcd_mul.mul_right _

end Orbit

section Cycle

variable {pos n range i : ℕ}

variable (pos n) in
/-- A cycle rotates the slots of its class. -/
theorem round_turn (hi : i < range) (b : ℕ → α) :
    (∀ k < range, k % range.gcd n = i % range.gcd n →
      round (turn n range) pos (range / range.gcd n - 1) b i (k + pos) =
        b ((k + n) % range + pos)) ∧
    ∀ p, (∀ k < range, k % range.gcd n = i % range.gcd n → p ≠ k + pos) →
      round (turn n range) pos (range / range.gcd n - 1) b i p = b p := by
  have hr : 0 < range := by omega
  have hL : 0 < range / range.gcd n :=
    Nat.div_pos (Nat.gcd_le_left n hr) (Nat.gcd_pos_of_pos_left n hr)
  have hinj : ∀ t ≤ range / range.gcd n - 1, ∀ u ≤ range / range.gcd n - 1,
      (turn n range)^[t] i = (turn n range)^[u] i → t = u := by
    intro t ht u hu h
    rw [iterate_turn hi, iterate_turn hi] at h
    exact orbit_injOn hr (by omega) (by omega) h
  rw [round, walk_snd, iterate_turn hi]
  constructor
  · intro k hk hclass
    obtain ⟨t, ht, rfl⟩ := exists_orbit_eq hr hk hclass
    by_cases hlast : t = range / range.gcd n - 1
    · -- the last slot takes the element kept aside
      subst hlast
      rw [update_self, ← orbit_succ, Nat.sub_add_cancel hL, orbit_close hi]
    · have hvisited := walk_apply pos (b := b) hinj (t := t) (by omega)
      rw [iterate_turn hi, iterate_turn hi, orbit_succ] at hvisited
      rw [update_of_ne, hvisited]
      intro heq
      exact hlast (orbit_injOn hr ht (by omega) (by omega : orbit n range i t = _))
  · intro p hp
    rw [update_of_ne (hp _ (orbit_lt hr _) (orbit_mod_gcd _)), walk_of_forall_ne]
    intro t _
    rw [iterate_turn hi]
    exact hp _ (orbit_lt hr t) (orbit_mod_gcd t)

end Cycle

section Range

variable {pos n range : ℕ}

/-- After the cycles below `g`, the classes below `g` are rotated. -/
theorem rounds_turn (hr : 0 < range) {g : ℕ} (hg : g ≤ range.gcd n) (b : ℕ → α) :
    (∀ k < range, rounds (turn n range) pos (range / range.gcd n - 1) g b (k + pos) =
      if k % range.gcd n < g then b ((k + n) % range + pos) else b (k + pos)) ∧
    ∀ p, (∀ k < range, p ≠ k + pos) →
      rounds (turn n range) pos (range / range.gcd n - 1) g b p = b p := by
  induction g generalizing b with
  | zero => exact ⟨fun k _ => by rw [if_neg (Nat.not_lt_zero _), rounds], fun _ _ => rfl⟩
  | succ g ih =>
    have hlt : g < range := lt_of_lt_of_le hg (Nat.gcd_le_left n hr)
    have hmod : g % range.gcd n = g := Nat.mod_eq_of_lt hg
    obtain ⟨hcycle, hkeep⟩ := round_turn pos n hlt b
    have hother : ∀ k < range, k % range.gcd n ≠ g →
        round (turn n range) pos (range / range.gcd n - 1) b g (k + pos) = b (k + pos) := by
      intro k _ hk
      apply hkeep
      intro j _ hj heq
      have : k = j := by omega
      exact hk (by rw [this, hj, hmod])
    obtain ⟨hrec, hout⟩ :=
      ih (by omega) (round (turn n range) pos (range / range.gcd n - 1) b g)
    constructor
    · intro k hk
      rw [rounds, hrec k hk]
      have hshift : (k + n) % range % range.gcd n = k % range.gcd n := by
        rw [Nat.mod_mod_of_dvd _ (Nat.gcd_dvd_left range n)]
        exact Nat.ModEq.add_left k (Nat.modEq_zero_iff_dvd.mpr (Nat.gcd_dvd_right range n)) |>.trans
          (by rw [Nat.add_zero])
      rcases lt_trichotomy (k % range.gcd n) g with hk' | hk' | hk'
      · rw [if_pos hk', if_pos (by omega), hother _ (Nat.mod_lt _ hr) (by omega)]
      · rw [if_neg (by omega), if_pos (by omega), hcycle k hk (by rw [hmod, hk'])]
      · rw [if_neg (by omega), if_neg (by omega), hother k hk (by omega)]
    · intro p hp
      rw [rounds, hout p hp]
      exact hkeep p fun k hk _ => hp k hk

theorem rotate_apply {k : ℕ} (hk : k < range) (b : ℕ → α) :
    rotate pos n range b (k + pos) = b ((k + n) % range + pos) := by
  have hr : 0 < range := by omega
  rw [rotate, (rounds_turn hr le_rfl b).1 k hk,
    if_pos (Nat.mod_lt _ (Nat.gcd_pos_of_pos_left n hr))]

theorem rotate_of_outside (hr : 0 < range) {p : ℕ} (hp : p < pos ∨ pos + range ≤ p) (b : ℕ → α) :
    rotate pos n range b p = b p :=
  (rounds_turn hr le_rfl b).2 p fun k hk => by omega

end Range

section Converse

variable {next : ℕ → ℕ} {pos n range : ℕ} {b : ℕ → α}

theorem rounds_eq_rotate (hr : 0 < range)
    (h : ∀ s < range.gcd n, ∀ t < range / range.gcd n - 1,
      next (orbit n range s t) = (orbit n range s t + n) % range) :
    rounds next pos (range / range.gcd n - 1) (range.gcd n) b = rotate pos n range b := by
  apply rounds_congr
  intro s hs t ht
  rw [iterate_turn (lt_of_lt_of_le hs (Nat.gcd_le_left n hr))]
  exact h s hs t ht

/-- If every slot gets another element, then the walks visit each slot once. -/
theorem iterate_injective {g m : ℕ} (hnext : ∀ i, next i < range) (hg : g ≤ range)
    (hcard : g * (m + 1) = range) (h : ∀ k < range, rounds next pos m g b (k + pos) ≠ b (k + pos))
    {s s' t t' : ℕ} (hs : s < g) (hs' : s' < g) (ht : t ≤ m) (ht' : t' ≤ m)
    (heq : next^[t] s = next^[t'] s') : s = s' ∧ t = t' := by
  have hlt : ∀ s < g, ∀ t, next^[t] s < range := by
    intro s hs t
    cases t with
    | zero => exact hs.trans_le hg
    | succ t =>
      rw [iterate_succ_apply']
      exact hnext _
  let visit : Fin g × Fin (m + 1) → Fin range := fun q => ⟨next^[q.2] q.1, hlt q.1 q.1.2 q.2⟩
  have hsurj : Function.Surjective visit := by
    intro k
    by_contra hnone
    apply h k k.2
    apply rounds_of_forall_ne
    intro s hs t ht hk
    exact hnone ⟨(⟨s, hs⟩, ⟨t, Nat.lt_succ_of_le ht⟩), Fin.ext (Nat.add_right_cancel hk).symm⟩
  have hinj := ((Fintype.bijective_iff_surjective_and_card visit).mpr ⟨hsurj, by simp [hcard]⟩).1
  have hpair : ((⟨s, hs⟩, ⟨t, Nat.lt_succ_of_le ht⟩) : Fin g × Fin (m + 1)) =
      (⟨s', hs'⟩, ⟨t', Nat.lt_succ_of_le ht'⟩) := hinj (Fin.ext heq)
  simpa using hpair

/-- If the walks rotate distinct elements, then the steps of the first one are those of its
cycle. -/
theorem next_of_rotated (hn : 0 < n) (hlt : n < range) (hnext : ∀ i, next i < range)
    (hb : ∀ j < range, ∀ k < range, b (j + pos) = b (k + pos) → j = k)
    (h : ∀ k < range, rounds next pos (range / range.gcd n - 1) (range.gcd n) b (k + pos) =
      b ((k + n) % range + pos)) {t : ℕ} (ht : t < range / range.gcd n - 1) :
    next (orbit n range (range.gcd n - 1) t) =
      (orbit n range (range.gcd n - 1) t + n) % range := by
  have hr : 0 < range := by omega
  have hgle := Nat.gcd_le_left n hr
  have hmul := Nat.mul_div_cancel' (Nat.gcd_dvd_left range n)
  obtain ⟨g, hg⟩ : ∃ g, range.gcd n = g + 1 :=
    Nat.exists_eq_succ_of_ne_zero (Nat.gcd_pos_of_pos_left n hr).ne'
  have hpos : 0 < range / range.gcd n := by omega
  rw [hg] at h ht hgle hmul hpos ⊢
  obtain ⟨m, hm⟩ : ∃ m, range / (g + 1) = m + 1 := Nat.exists_eq_succ_of_ne_zero hpos.ne'
  rw [hm, Nat.add_sub_cancel] at h ht
  rw [Nat.add_sub_cancel]
  have hinj : ∀ {s s' t t' : ℕ}, s < g + 1 → s' < g + 1 → t ≤ m → t' ≤ m →
      next^[t] s = next^[t'] s' → s = s' ∧ t = t' := by
    apply iterate_injective hnext hgle (hm ▸ hmul)
    intro k hk heq
    have hfix := hb _ (Nat.mod_lt _ hr) k hk ((h k hk).symm.trans heq)
    rcases Nat.lt_or_ge (k + n) range with hkn | hkn
    · rw [Nat.mod_eq_of_lt hkn] at hfix
      omega
    · rw [Nat.mod_eq_sub_mod hkn, Nat.mod_eq_of_lt (by omega)] at hfix
      omega
  -- the later walks do not visit a slot of the first one
  have hstep : ∀ t < m, next^[t] g < range → next^[t + 1] g = (next^[t] g + n) % range := by
    intro t ht hk
    have hfirst : rounds next pos m (g + 1) b (next^[t] g + pos) = b (next^[t + 1] g + pos) := by
      rw [rounds, rounds_of_forall_ne, round, walk_snd, update_of_ne, walk_apply]
      · intro t ht u hu heq
        exact (hinj (Nat.lt_succ_self g) (Nat.lt_succ_self g) ht hu heq).2
      · exact ht
      · intro heq
        have := (hinj (Nat.lt_succ_self g) (Nat.lt_succ_self g) ht.le le_rfl
          (Nat.add_right_cancel heq)).2
        omega
      · intro s hs u hu heq
        have := (hinj (Nat.lt_succ_self g) (by omega) ht.le hu (Nat.add_right_cancel heq)).1
        omega
    rw [h _ hk] at hfirst
    refine (hb _ (Nat.mod_lt _ hr) _ ?_ hfirst).symm
    rw [iterate_succ_apply']
    exact hnext _
  have horbit : ∀ t ≤ m, next^[t] g = orbit n range g t := by
    intro t
    induction t with
    | zero => exact fun _ => (orbit_zero hgle).symm
    | succ t ih =>
      intro ht
      have hprev := ih (by omega)
      rw [hstep t ht (hprev ▸ orbit_lt hr t), hprev, orbit_succ]
  rw [← horbit t ht.le, ← hstep t ht (horbit t ht.le ▸ orbit_lt hr t), iterate_succ_apply']

end Converse

end Rotate
