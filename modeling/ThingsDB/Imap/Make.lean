import ThingsDB.Imap.Inplace

/-!
# Operations into a new node

With equal counts the comparison of two nodes tells whether they have the same entries below
them; difference and symmetric difference leave such nodes out.
-/

namespace ThingsDB.Imap.Node

open Paths Finset

variable {α : Type} {f : Bool → Bool → Bool} {val : List Key → α}
variable {a b nd : Node α} {d : Option α} {nds : Key → Node α} {k key : Key} {s : ℕ} {walkB : Bool}
variable {d' : Option α} {s' : ℕ}

section Eq

variable {a b : Node α}

theorem count_congr (h : ∀ k, a.under k = b.under k) : a.count = b.count := by
  rw [count, count, sum_congr rfl fun k _ => congrArg card (h k)]

theorem Sound.paths_eq_iff (ha : Sound val a) (hb : Sound val b) : a.paths = b.paths ↔
    a.data = b.data ∧ ∀ k, a.under k = b.under k := by
  constructor
  · intro h
    have hdata : a.data.isSome = true ↔ b.data.isSome = true := by
      rw [← nil_mem_paths, ← nil_mem_paths, h]
    refine ⟨?_, fun k => by rw [← tails_paths, ← tails_paths, h]⟩
    cases hx : a.data with
    | none =>
      cases hy : b.data with
      | none => rfl
      | some y => simp [hx, hy] at hdata
    | some x =>
      cases hy : b.data with
      | none => simp [hx, hy] at hdata
      | some y => rw [ha.data x hx, hb.data y hy]
  · rintro ⟨hdata, hunder⟩
    exact paths_ext (by rw [hdata]) hunder

theorem count_single (d : Option α) (s : ℕ) (key : Key) (nd : Node α) :
    (Node.single d s key nd).count = nd.paths.card := by
  rw [count, sum_eq_single key]
  · rw [Node.under, ensureNode_single]
  · intro k _ hne
    rw [Node.under, ensureNode_single_ne (Ne.symm hne)]
    rfl
  · simp

theorem eq_zero_of_sum_eq {g : Key → ℕ} (h : g key = ∑ k, g k) (hk : k ≠ key) : g k = 0 := by
  have hsum := add_sum_erase univ g (mem_univ key)
  have hzero : ∑ k ∈ univ.erase key, g k = 0 := by omega
  exact Finset.sum_eq_zero_iff.mp hzero k (mem_erase.mpr ⟨hk, mem_univ k⟩)

theorem paths_eq_empty_iff : nd.paths = ∅ ↔ nd.data = none ∧ nd.count = 0 := by
  rw [← card_eq_zero, card_paths]
  cases nd.data <;> simp

/-- A full node is like a node with one child if they agree on that child, and nothing is counted
below the others. -/
theorem full_eq_single
    (hfull : Sound val (.full d s nds)) (hsingle : Sound val (.single d' s' key nd))
    (hsz : s = s') : ((nds key).paths = nd.paths ∧ ∀ i, key ≠ i → (nds i).sz = 0) ↔
      ∀ k, (Node.full d s nds).under k = (Node.single d' s' key nd).under k := by
  have hunder : ∀ k, (Node.full d s nds).under k = (nds k).paths := fun _ => rfl
  constructor
  · rintro ⟨hpaths, -⟩ k
    have hsum : (nds key).paths.card = ∑ k, (nds k).paths.card := by
      have hcount : s = ∑ k, (nds k).paths.card := hfull.sz.trans (by rw [count]; rfl)
      rw [← hcount, hsz, hpaths]
      exact ((hsingle.sz).trans (count_single d' s' key nd)).symm
    by_cases hk : key = k
    · subst hk
      rw [hunder, hpaths, Node.under, ensureNode_single]
    · rw [hunder, Node.under, ensureNode_single_ne hk]
      exact card_eq_zero.mp
        (eq_zero_of_sum_eq (g := fun k => (nds k).paths.card) hsum (Ne.symm hk))
  · intro h
    refine ⟨?_, fun i hi => ?_⟩
    · rw [← hunder, h, Node.under, ensureNode_single]
    · have hempty : (nds i).paths = ∅ := by
        rw [← hunder, h, Node.under, ensureNode_single_ne hi]
        rfl
      rw [(hfull.kids (k := i) rfl).sz, (paths_eq_empty_iff.mp hempty).2]

/-- The loop over the child nodes of a full node, where the other one has one child. -/
theorem all_eq_iff {t : Key → Bool}
    (hfull : Sound val (.full d s nds)) (hsingle : Sound val (.single d' s' key nd))
    (hsz : s = s') (ht : t key ↔ (nds key).paths = nd.paths) :
    ((List.finRange 32).all fun i => if key = i then t i else (nds i).sz = 0) = true ↔
      ∀ k, (Node.full d s nds).under k = (Node.single d' s' key nd).under k := by
  rw [← full_eq_single hfull hsingle hsz, ← ht]
  simp only [List.all_eq_true, List.mem_finRange, true_imp_iff]
  constructor
  · intro h
    exact ⟨by simpa using h key, fun i hi => by simpa [hi] using h i⟩
  · rintro ⟨hkey, hrest⟩ i
    by_cases hi : key = i
    · rw [if_pos hi, ← hi, hkey]
    · simpa [hi] using hrest i hi

variable [DecidableEq α]

/-- The comparison of nodes with equal counts is exact. -/
def Compares (val : List Key → α) (a : Node α) : Prop :=
  ∀ b, Sound val b → a.hasNodes = true → b.hasNodes = true → a.sz = b.sz →
    (a.eq b = true ↔ ∀ k, a.under k = b.under k)

theorem eqNd_iff (hcmp : Compares val a) (ha : Sound val a) (hb : Sound val b) :
    eqNd a.eq a b ↔ a.paths = b.paths := by
  rw [ha.paths_eq_iff hb, eqNd]
  simp only [Bool.and_eq_true, decide_eq_true_eq, Bool.or_eq_true, Bool.not_eq_true']
  constructor
  · rintro ⟨⟨⟨hsz, hdata⟩, hnodes⟩, hrec⟩
    refine ⟨hdata, ?_⟩
    cases hn : a.hasNodes with
    | false =>
      intro k
      rw [under_null hn, under_null (hnodes ▸ hn)]
    | true =>
      have heq : a.eq b = true := by simpa [hn] using hrec
      exact (hcmp b hb hn (hnodes ▸ hn) hsz).mp heq
  · rintro ⟨hdata, hunder⟩
    have hsz : a.sz = b.sz := by rw [ha.sz, hb.sz, count_congr hunder]
    have hnodes : a.hasNodes = b.hasNodes := by
      rw [Bool.eq_iff_iff, ha.nodes, hb.nodes, hsz]
    refine ⟨⟨⟨hsz, hdata⟩, hnodes⟩, ?_⟩
    cases hn : a.hasNodes with
    | false => exact .inl rfl
    | true => exact .inr ((hcmp b hb hn (hnodes ▸ hn) hsz).mpr hunder)

theorem Sound.compares (ha : Sound val a) : Compares val a := by
  induction a generalizing val with
  | null d s => exact fun b hb hn => by cases hn
  | single d s key nd ih =>
    intro b hb hn hbn hsz
    have hnd := ha.kids (k := key) (if_pos rfl)
    cases b with
    | null d' s' => cases hbn
    | single d' s' key' nd' =>
      have hnd' := hb.kids (k := key') (if_pos rfl)
      simp only [eq, Bool.and_eq_true, decide_eq_true_eq]
      constructor
      · rintro ⟨rfl, hnds⟩ k
        rw [eqNd_iff (ih hnd) hnd hnd'] at hnds
        by_cases hk : key = k
        · subst hk
          rw [Node.under, Node.under, ensureNode_single, ensureNode_single, hnds]
        · rw [Node.under, Node.under, ensureNode_single_ne hk, ensureNode_single_ne hk]
      · intro h
        have hpos := ha.sz_pos rfl
        have hkey : key = key' := by
          by_contra hne
          have hempty := h key
          rw [Node.under, Node.under, ensureNode_single, ensureNode_single_ne (Ne.symm hne)]
            at hempty
          rw [count_single, hempty] at hpos
          exact absurd hpos (Nat.lt_irrefl 0)
        subst hkey
        refine ⟨rfl, (eqNd_iff (ih hnd) hnd hnd').mpr ?_⟩
        simpa only [Node.under, ensureNode_single] using h key
    | full d' s' nds =>
      have hkid := eqNd_iff (ih hnd) hnd (hb.kids (k := key) rfl)
      rw [eq, all_eq_iff hb ha hsz.symm (hkid.trans eq_comm)]
      exact forall_congr' fun k => eq_comm
  | full d s nds ih =>
    intro b hb hn hbn hsz
    cases b with
    | null d' s' => cases hbn
    | single d' s' key nd =>
      have hnd := hb.kids (k := key) (if_pos rfl)
      have hnds := ha.kids (k := key) rfl
      exact all_eq_iff ha hb hsz (eqNd_iff (ih key hnds) hnds hnd)
    | full d' s' nds' =>
      simp only [eq, List.all_eq_true, List.mem_finRange, true_imp_iff]
      refine forall_congr' fun k => ?_
      have hk := ha.kids (k := k) rfl
      exact eqNd_iff (ih k hk) hk (hb.kids (k := k) rfl)

theorem Sound.differs_iff (ha : Sound val a) (hb : Sound val b) (hn : a.hasNodes)
    (hbn : b.hasNodes) :
    (decide (a.sz ≠ b.sz) || !a.eq b) = true ↔ ∃ k, a.under k ≠ b.under k := by
  by_cases hsz : a.sz = b.sz
  · have hcmp := ha.compares b hb hn hbn hsz
    rw [← not_iff_not, not_exists]
    simpa [hsz] using hcmp
  · refine iff_of_true (by simp [hsz]) (by_contra fun hall => hsz ?_)
    rw [ha.sz, hb.sz, count_congr (by simpa using hall)]

end Eq

/-- A call makes a node without data of the entries below two nodes. -/
def Makes (f : Bool → Bool → Bool) (val : List Key → α) (a : Node α) (rec : Node α → Node α)
    (b : Node α) : Prop :=
  Sound val (rec b) ∧ (∀ k, (rec b).under k = merged f (a.under k) (b.under k)) ∧
    (rec b).data = none

section

variable (hd : ∀ x ∈ d, x = val []) (hsome : d.isSome = f a.data.isSome b.data.isSome)

include hd hsome

theorem Round.ofNull (hunder : ∀ k, merged f (a.under k) (b.under k) = ∅) :
    Round f val a b 0 (.null d 0, one d.isSome) := by
  refine ⟨Sound.null hd, hsome, fun k => ?_, ?_⟩
  · rw [hunder, under_null rfl]
  · simp

theorem Round.ofNode
    (hnd : Sound val nd) (hunder : ∀ k, nd.under k = merged f (a.under k) (b.under k)) :
    Round f val a b 0 (nd.withData d, one d.isSome + (nd.withData d).sz) :=
  Round.withData hnd hd hsome hunder (by simp)

end

/-- A loop into a new node whose rounds merge the child nodes of two nodes. -/
theorem loop_makes {src : Node α} {g : Key → Node α → Node α × ℤ}
    (hn : src.hasNodes)
    (hround : ∀ k c, src.getNode k = some c →
      Round f (fun p => val (k :: p)) (a.ensureNode k) (b.ensureNode k) 0 (g k c))
    (hrest : ∀ k, src.getNode k = none → merged f (a.under k) (b.under k) = ∅)
    (hf : f false false = false) (hfits : Fits f a b) :
    Merged f val a b (src.loop none 0 g) :=
  loop_merged (fun _ => 0) hn (by simp) hround (fun k hget => ⟨rfl, hrest k hget⟩) hf hfits

theorem fits_single_left (hf : f false false = false) (h : Fits f (.single d s key nd) b) :
    Fits f nd (b.ensureNode key) := by
  simpa only [ensureNode_single] using fits_ensureNode hf h key

theorem fits_full_left (hf : f false false = false) (h : Fits f (.full d s nds) b) (k : Key) :
    Fits f (nds k) (b.ensureNode k) := fits_ensureNode hf h k

theorem merged_minus_of_none (h : a.getNode k = none) :
    merged minus (a.under k) (b.under k) = ∅ := by
  rw [under_of_none h, merged_diff, empty_sdiff]

section Difference

variable [DecidableEq α] {rec : Node α → Node α} {aNd bNd : Node α}

theorem differenceMakeNd_round (ha : Sound val aNd) (hb : Sound val bNd)
    (hrec : aNd.hasNodes → bNd.hasNodes → Makes minus val aNd rec bNd) :
    Round minus val aNd bNd 0 (differenceMakeNd rec aNd bNd) := by
  obtain ⟨d, hdata, hone, hsome, hval⟩ : ∃ d : Option α,
      (if aNd.data.isSome && bNd.data.isNone then aNd.data else none) = d ∧
      one (aNd.data.isSome && bNd.data.isNone) = one d.isSome ∧
      d.isSome = minus aNd.data.isSome bNd.data.isSome ∧ ∀ x ∈ d, x = val [] := by
    cases hx : aNd.data with
    | none => exact ⟨none, by simp, rfl, rfl, by simp⟩
    | some x =>
      cases bNd.data with
      | none => exact ⟨some x, rfl, rfl, rfl, hx ▸ ha.data⟩
      | some y => exact ⟨none, rfl, rfl, rfl, by simp⟩
  rw [differenceMakeNd, hdata, hone]
  cases hn : aNd.hasNodes with
  | false =>
    simp only [Bool.false_eq_true, if_false]
    exact Round.ofNull hval hsome fun k => by simp [under_null hn, merged_diff]
  | true =>
    cases hbn : bNd.hasNodes with
    | false =>
      simp only [Bool.not_false, if_true, ha.dup_eq]
      exact Round.ofNode hval hsome ha fun k => by simp [under_null hbn, merged_diff]
    | true =>
      simp only [Bool.not_true, Bool.false_eq_true, if_false, if_true]
      by_cases hdiff : (decide (aNd.sz ≠ bNd.sz) || !aNd.eq bNd) = true
      · obtain ⟨hs, hu, -⟩ := hrec hn hbn
        rw [if_pos hdiff]
        exact Round.ofNode hval hsome hs hu
      · -- equal nodes are left out
        have hunder : ∀ k, aNd.under k = bNd.under k := by
          simpa using mt (ha.differs_iff hb hn hbn).mpr hdiff
        rw [if_neg hdiff]
        exact Round.ofNull hval hsome fun k => by simp [hunder k, merged_diff]

theorem differenceMake_makes (ha : Sound val a) (hn : a.hasNodes)
    (hb : Sound val b) (hfits : Fits minus a b) : Makes minus val a a.differenceMake b := by
  induction a generalizing val b with
  | null d s => cases hn
  | single d s key nd ih =>
    refine (loop_makes rfl ?_ (fun k => merged_minus_of_none) rfl hfits).freeEmpty data_loop nofun
    intro k c hget
    obtain rfl := key_of_getNode hget
    have hnd := ha.kids (k := key) (if_pos rfl)
    have hkid := hb.ensureNode key
    rw [ensureNode_single]
    exact differenceMakeNd_round hnd hkid fun hn' _ => ih hnd hn' hkid (fits_single_left rfl hfits)
  | full d s nds ih =>
    refine (loop_makes rfl ?_ (fun k => merged_minus_of_none) rfl hfits).freeEmpty data_loop nofun
    intro k c hget
    have hk := ha.kids (k := k) rfl
    have hkid := hb.ensureNode k
    exact differenceMakeNd_round hk hkid fun hn' _ => ih k hk hn' hkid (fits_full_left rfl hfits k)

end Difference

section Intersection

variable {rec : Node α → Node α} {aNd bNd : Node α}

theorem intersectionMakeNd_round (ha : Sound val aNd) (hb : Sound val bNd)
    (hrec : aNd.hasNodes → bNd.hasNodes → Makes and val aNd rec bNd) :
    Round and val aNd bNd 0 (intersectionMakeNd rec walkB aNd bNd) := by
  obtain ⟨d, hdata, hone, hsome, hval⟩ : ∃ d : Option α,
      (if aNd.data.isSome && bNd.data.isSome then (if walkB then bNd.data else aNd.data)
        else none) = d ∧
      one (aNd.data.isSome && bNd.data.isSome) = one d.isSome ∧
      d.isSome = (aNd.data.isSome && bNd.data.isSome) ∧ ∀ x ∈ d, x = val [] := by
    cases hx : aNd.data with
    | none => exact ⟨none, by simp, rfl, rfl, by simp⟩
    | some x =>
      cases hy : bNd.data with
      | none => exact ⟨none, by simp, rfl, rfl, by simp⟩
      | some y =>
        cases walkB with
        | true => exact ⟨some y, rfl, rfl, rfl, hy ▸ hb.data⟩
        | false => exact ⟨some x, rfl, rfl, rfl, hx ▸ ha.data⟩
  rw [intersectionMakeNd, hdata, hone]
  cases hn : aNd.hasNodes with
  | false =>
    simp only [Bool.false_and, Bool.false_eq_true, if_false]
    exact Round.ofNull hval hsome fun k => by simp [under_null hn, merged_and]
  | true =>
    cases hbn : bNd.hasNodes with
    | false =>
      simp only [Bool.and_false, Bool.false_eq_true, if_false]
      exact Round.ofNull hval hsome fun k => by simp [under_null hbn, merged_and]
    | true =>
      obtain ⟨hs, hu, -⟩ := hrec hn hbn
      exact Round.ofNode hval hsome hs hu

/-- Either of the two nodes may be walked. -/
theorem merged_and_of_none
    (h : (if walkB then b else a).getNode k = none) : merged and (a.under k) (b.under k) = ∅ := by
  cases walkB with
  | true => rw [under_of_none (show b.getNode k = none from h), merged_and, inter_empty]
  | false => rw [under_of_none (show a.getNode k = none from h), merged_and, empty_inter]

theorem intersectionMake_makes (swapped : Bool) (ha : Sound val a)
    (hn : a.hasNodes) (hb : Sound val b) (hbn : b.hasNodes) (hfits : Fits and a b) :
    Makes and val a (a.intersectionMake swapped) b := by
  induction a generalizing val b swapped with
  | null d s => cases hn
  | single d s key nd ih =>
    refine (loop_makes ?_ ?_ (fun k => merged_and_of_none) rfl hfits).freeEmpty data_loop nofun
    · cases swapped && !b.isFull
      · rfl
      · exact hbn
    · intro k c hget
      have hkid := hb.ensureNode k
      by_cases hkey : key = k
      · subst hkey
        have hnd := ha.kids (k := key) (if_pos rfl)
        rw [if_pos rfl, ensureNode_single]
        exact intersectionMakeNd_round hnd hkid fun hn' hbn' =>
          ih _ hnd hn' hkid hbn' (fits_single_left rfl hfits)
      · rw [if_neg hkey, ensureNode_single_ne hkey]
        exact intersectionMakeNd_round Sound.empty hkid nofun
  | full d s nds ih =>
    refine (loop_makes ?_ ?_ (fun k => merged_and_of_none) rfl hfits).freeEmpty data_loop nofun
    · cases swapped || !b.isFull
      · rfl
      · exact hbn
    · intro k c hget
      have hk := ha.kids (k := k) rfl
      have hkid := hb.ensureNode k
      exact intersectionMakeNd_round hk hkid fun hn' hbn' =>
        ih k _ hk hn' hkid hbn' (fits_full_left rfl hfits k)

end Intersection

/-- Nodes which differ leave an entry. -/
theorem Merged.makes_of_ne (h : Merged xor val a b nd) (hdata : nd.data = none)
    (hne : ∃ k, a.under k ≠ b.under k) : Sound val nd ∧
      (∀ k, nd.under k = merged xor (a.under k) (b.under k)) ∧ nd.data = none := by
  refine ⟨h.summed.sound (by simp [hdata]) fun _ => ?_, h.under, hdata⟩
  obtain ⟨k, hk⟩ := hne
  rw [count, Nat.pos_iff_ne_zero, Ne, Finset.sum_eq_zero_iff]
  intro hzero
  have hempty := card_eq_zero.mp (hzero k (mem_univ k))
  rw [h.under, merged_xor, ← bot_eq_empty, symmDiff_eq_bot] at hempty
  exact hk hempty

theorem merged_xor_of_none (hn : a.hasNodes) (hbn : b.hasNodes)
    (h : (b.growAs a).getNode k = none) : merged xor (a.under k) (b.under k) = ∅ := by
  obtain ⟨hak, hbk⟩ := under_of_growAs hn hbn h
  rw [hak, hbk, merged_empty_right (by simp)]

section Symmdiff

variable [DecidableEq α] {rec : Node α → Node α} {aNd bNd : Node α}

theorem symmdiffMakeNd_round (ha : Sound val aNd) (hb : Sound val bNd)
    (hrec : aNd.hasNodes → bNd.hasNodes → (∃ k, aNd.under k ≠ bNd.under k) →
      Makes xor val aNd rec bNd) :
    Round xor val aNd bNd 0 (symmdiffMakeNd rec aNd bNd) := by
  obtain ⟨d, hdata, hsome, hval⟩ : ∃ d : Option α,
      (if aNd.data.isSome && bNd.data.isNone then aNd.data
        else if aNd.data.isNone && bNd.data.isSome then bNd.data else none) = d ∧
      d.isSome = (aNd.data.isSome ^^ bNd.data.isSome) ∧ ∀ x ∈ d, x = val [] := by
    cases hx : aNd.data with
    | none =>
      cases hy : bNd.data with
      | none => exact ⟨none, by simp, rfl, by simp⟩
      | some y => exact ⟨some y, rfl, rfl, hy ▸ hb.data⟩
    | some x =>
      cases bNd.data with
      | none => exact ⟨some x, rfl, rfl, hx ▸ ha.data⟩
      | some y => exact ⟨none, rfl, rfl, by simp⟩
  rw [symmdiffMakeNd, hdata]
  cases hn : aNd.hasNodes with
  | false =>
    cases hbn : bNd.hasNodes with
    | false =>
      simp only [Bool.false_and, Bool.and_false, Bool.false_eq_true, if_false]
      exact Round.ofNull hval hsome fun k => by
        rw [under_null hn, under_null hbn, merged_empty_right (by simp)]
    | true =>
      simp only [Bool.false_and, Bool.false_eq_true, if_false, Bool.not_false, Bool.and_true,
        if_true, hb.dup_eq]
      exact Round.ofNode hval hsome hb fun k => by
        rw [under_null hn, merged_empty_left (by simp)]
  | true =>
    cases hbn : bNd.hasNodes with
    | false =>
      simp only [Bool.and_false, Bool.false_and, Bool.false_eq_true, if_false, Bool.not_false,
        Bool.and_true, if_true, ha.dup_eq]
      exact Round.ofNode hval hsome ha fun k => by
        rw [under_null hbn, merged_empty_right (by simp)]
    | true =>
      simp only [Bool.and_self, Bool.true_and, Bool.not_true, Bool.and_false, Bool.false_and,
        Bool.false_eq_true, if_false]
      by_cases hdiff : (decide (aNd.sz ≠ bNd.sz) || !aNd.eq bNd) = true
      · have hne := (ha.differs_iff hb hn hbn).mp hdiff
        obtain ⟨hs, hu, -⟩ := hrec hn hbn hne
        rw [if_pos hdiff]
        exact Round.ofNode hval hsome hs hu
      · have hunder : ∀ k, aNd.under k = bNd.under k := by
          simpa using mt (ha.differs_iff hb hn hbn).mpr hdiff
        rw [if_neg hdiff]
        exact Round.ofNull hval hsome fun k => by
          rw [hunder k, merged_xor, symmDiff_self, bot_eq_empty]

theorem symmdiffMake_makes (ha : Sound val a) (hn : a.hasNodes)
    (hb : Sound val b) (hbn : b.hasNodes) (hfits : Fits xor a b)
    (hne : ∃ k, a.under k ≠ b.under k) : Makes xor val a a.symmdiffMake b := by
  induction a generalizing val b with
  | null d s => cases hn
  | single d s key nd ih =>
    refine (loop_makes ?_ ?_ (fun k => merged_xor_of_none hn hbn) rfl hfits).makes_of_ne
      data_loop hne
    · simpa using hn
    · intro k c hget
      have hkid := hb.ensureNode k
      by_cases hkey : key = k
      · subst hkey
        have hnd := ha.kids (k := key) (if_pos rfl)
        rw [if_pos rfl, ensureNode_single]
        exact symmdiffMakeNd_round hnd hkid fun hn' hbn' hne' =>
          ih hnd hn' hkid hbn' (fits_single_left rfl hfits) hne'
      · rw [if_neg hkey, ensureNode_single_ne hkey]
        exact symmdiffMakeNd_round Sound.empty hkid nofun
  | full d s nds ih =>
    refine (loop_makes ?_ ?_ (fun k => merged_xor_of_none hn hbn) rfl hfits).makes_of_ne
      data_loop hne
    · simpa using hn
    · intro k c hget
      have hk := ha.kids (k := k) rfl
      have hkid := hb.ensureNode k
      exact symmdiffMakeNd_round hk hkid fun hn' hbn' hne' =>
        ih k hk hn' hkid hbn' (fits_full_left rfl hfits k) hne'

end Symmdiff

end ThingsDB.Imap.Node
