import ThingsDB.Imap.Entry
import ThingsDB.Imap.Make
import ThingsDB.Imap.Map

/-!
# Integer maps are finite maps

A map and the finite set of its ids: what every call does to the set, as long as the ids can be
counted in 32 bits.
-/

namespace ThingsDB.Imap

open Bijective Paths Node Finset

variable {α : Type}

/-- The ways from a node to the ids of a set. -/
noncomputable def part (S : Finset ℕ) (k : Key) : Finset (List Key) := tails (S.image keys) k

theorem keys_value (k : Key) (ks : List Key) : keys (value k ks) = k :: ks :=
  digits_value k ks

theorem keys_injective : Function.Injective keys := digits_injective

variable {f : Bool → Bool → Bool} {g : Key → Node α × ℤ} {k : Key}

theorem mem_part {S : Finset ℕ} {ks : List Key} : ks ∈ part S k ↔ value k ks ∈ S := by
  rw [part, mem_tails, ← keys_value, mem_image]
  constructor
  · rintro ⟨id, hid, heq⟩
    rwa [← keys_injective heq]
  · exact fun h => ⟨_, h, rfl⟩

theorem card_eq_sum_part (S : Finset ℕ) : S.card = ∑ k, (part S k).card := by
  have hnil : [] ∉ S.image keys := by
    rw [mem_image]
    rintro ⟨id, -, h⟩
    obtain ⟨k, ks, -, hkeys⟩ := exists_value (b := 32) id
    rw [keys, hkeys] at h
    cases h
  have hcard := Paths.card_eq (S.image keys)
  rw [card_image_of_injective S keys_injective, if_neg hnil, Nat.zero_add] at hcard
  exact hcard

theorem part_merged (hf : f false false = false) (S T : Finset ℕ)
    (k : Key) : part (merged f S T) k = merged f (part S k) (part T k) := by
  ext ks
  rw [mem_part, mem_merged hf, mem_merged hf]
  simp only [mem_part]

namespace Map

/-- The map holds the data of each id of the set. -/
structure Is (val : ℕ → α) (m : Map α) (S : Finset ℕ) : Prop where
  sound : ∀ k, Sound (fun ks => val (value k ks)) (m.nodes k)
  paths : ∀ k, (m.nodes k).paths = part S k
  n : m.n = S.card

variable {val : ℕ → α} {m a b : Map α} {S T U : Finset ℕ}

theorem Is.get_eq (h : Is val m S) (id : ℕ) :
    m.get id = if id ∈ S then some (val id) else none := by
  obtain ⟨k, ks, rfl, hkeys⟩ := exists_value (b := 32) id
  rw [get, keys, hkeys]
  simp only [(h.sound k).get_eq, h.paths, mem_part]

theorem Is.n_eq_zero (h : Is val m S) : m.n = 0 ↔ S = ∅ := by
  rw [h.n, card_eq_zero]

theorem is_create : Is val create ∅ := by
  refine ⟨fun k => Sound.empty, fun k => ?_, rfl⟩
  rw [part, image_empty]
  ext ks
  simp [create, Node.empty, Node.paths]

theorem Is.update (h : Is val m S) {nd : Node α} {c : ℕ}
    (hnd : Sound (fun ks => val (value k ks)) nd) (hpaths : nd.paths = part U k)
    (hrest : ∀ i, i ≠ k → part U i = part S i) (hc : c = U.card) :
    Is val ⟨c, Function.update m.nodes k nd⟩ U := by
  refine ⟨fun i => ?_, fun i => ?_, hc⟩
  · by_cases hi : i = k
    · subst hi
      simpa using hnd
    · simpa [hi] using h.sound i
  · by_cases hi : i = k
    · subst hi
      simpa using hpaths
    · simpa [hi, hrest i hi] using h.paths i

theorem part_insert_self (S : Finset ℕ) (k : Key) (ks : List Key) :
    part (insert (value k ks) S) k = insert ks (part S k) := by
  ext q
  simp [mem_part, value_inj]

theorem part_insert_ne (S : Finset ℕ) {i : Key} (ks : List Key) (h : i ≠ k) :
    part (insert (value k ks) S) i = part S i := by
  ext q
  simp [mem_part, value_inj, h]

theorem part_erase_self (S : Finset ℕ) (k : Key) (ks : List Key) :
    part (S.erase (value k ks)) k = (part S k).erase ks := by
  ext q
  simp [mem_part, value_inj]

theorem part_erase_ne (S : Finset ℕ) {i : Key} (ks : List Key) (h : i ≠ k) :
    part (S.erase (value k ks)) i = part S i := by
  ext q
  simp [mem_part, value_inj, h]

theorem card_part_le (S : Finset ℕ) (k : Key) : (part S k).card ≤ S.card := by
  rw [card_eq_sum_part]
  exact Finset.single_le_sum (f := fun k => (part S k).card) (fun _ _ => Nat.zero_le _)
    (mem_univ k)

theorem Is.add_snd (h : Is val m S) (id : ℕ) (x : α) : (m.add id x).2 = decide (id ∉ S) := by
  obtain ⟨k, ks, rfl, hkeys⟩ := exists_value (b := 32) id
  rw [add, keys, hkeys]
  simp only [(h.sound k).add_snd, h.paths, mem_part]

theorem Is.add (h : Is val m S) (id : ℕ) (hS : (insert id S).card < 2 ^ 32) :
    Is val (m.add id (val id)).1 (insert id S) := by
  have hnew := h.add_snd id (val id)
  obtain ⟨k, ks, rfl, hkeys⟩ := exists_value (b := 32) id
  have hle := card_part_le (insert (value k ks) S) k
  rw [part_insert_self, ← h.paths] at hle
  obtain ⟨hs, hpaths⟩ := (h.sound k).add (p := ks) (by omega)
  rw [Map.add, keys, hkeys] at hnew ⊢
  simp only at hnew ⊢
  refine h.update hs ?_ (fun i hi => part_insert_ne S ks hi) ?_
  · rw [hpaths, h.paths, part_insert_self]
  · have hz : (S.card : ℤ) + one (decide (value k ks ∉ S)) =
        ((insert (value k ks) S).card : ℕ) := by
      by_cases hin : value k ks ∈ S <;> simp [hin, one]
    rw [hnew, h.n, hz, wrap_natCast (by omega)]

theorem Is.pop (h : Is val m S) (id : ℕ) (hS : S.card < 2 ^ 32) :
    Is val (m.pop id).1 (S.erase id) ∧ (m.pop id).2 = m.get id := by
  have hget := h.get_eq id
  obtain ⟨k, ks, rfl, hkeys⟩ := exists_value (b := 32) id
  have hle := card_part_le S k
  rw [← h.paths] at hle
  obtain ⟨hs, hpaths⟩ := (h.sound k).pop (p := ks) (by omega)
  have hfound := pop_snd (m.nodes k) ks
  rw [Map.get, keys, hkeys] at hget
  rw [Map.pop, Map.get, keys, hkeys]
  simp only at hget ⊢
  refine ⟨h.update hs ?_ (fun i hi => part_erase_ne S ks hi) ?_, hfound⟩
  · rw [hpaths, h.paths, part_erase_self]
  · have hz : (S.card : ℤ) - one (if value k ks ∈ S then
        some (val (value k ks)) else none).isSome =
        ((S.erase (value k ks)).card : ℕ) := by
      split_ifs with hin
      · simp [one, ← card_erase_add_one hin]
      · simp [one, hin]
    have hle' := card_erase_le (s := S) (a := value k ks)
    rw [hfound, hget, h.n, hz, wrap_natCast (by omega)]

/-- A loop over all nodes whose rounds merge those of two maps. -/
theorem is_each {dest : Map α} (old : Key → ℤ)
    (ha : Is val a S) (hb : Is val b T) (hf : f false false = false)
    (hn : (dest.n : ℤ) = ∑ k, old k)
    (hround : ∀ k, Fits f (a.nodes k) (b.nodes k) →
      Round f (fun ks => val (value k ks)) (a.nodes k) (b.nodes k) (old k) (g k))
    (hfits : (merged f S T).card < 2 ^ 32) : Is val (dest.each g) (merged f S T) := by
  have hparts : ∀ k, merged f (a.nodes k).paths (b.nodes k).paths = part (merged f S T) k := by
    intro k
    rw [part_merged hf, ha.paths, hb.paths]
  have hround : ∀ k, Round f (fun ks => val (value k ks)) (a.nodes k) (b.nodes k)
      (old k) (g k) := by
    intro k
    apply hround
    have hcard := Paths.card_eq (merged f (a.nodes k).paths (b.nodes k).paths)
    have hle := card_part_le (merged f S T) k
    rw [← hparts] at hle
    simp only [tails_merged hf, tails_paths] at hcard
    unfold Fits
    omega
  have hpaths : ∀ k, (g k).1.paths = part (merged f S T) k := by
    intro k
    rw [(hround k).paths hf, hparts]
  have hz : (dest.n : ℤ) + ∑ k, (g k).2 = ((merged f S T).card : ℕ) := by
    have hchange : ∀ k, (g k).2 = (part (merged f S T) k).card - old k := by
      intro k
      rw [← hpaths, ← (hround k).sound.entries_eq]
      exact (hround k).change
    rw [hn, sum_congr rfl fun k _ => hchange k, sum_sub_distrib, card_eq_sum_part,
      Nat.cast_sum, add_sub_cancel]
  refine ⟨fun k => (hround k).sound, hpaths, ?_⟩
  rw [each, hz, wrap_natCast (by omega)]

theorem Is.n_eq_sum (h : Is val m S) : (m.n : ℤ) = ∑ k, (m.nodes k).entries := by
  rw [h.n, card_eq_sum_part, Nat.cast_sum]
  refine sum_congr rfl fun k _ => ?_
  rw [(h.sound k).entries_eq, h.paths]

section

variable (ha : Is val a S) (hb : Is val b T)

include ha hb

theorem Is.eachInplace (hf : f false false = false) (hU : merged f S T = U)
    (hround : ∀ k, Fits f (a.nodes k) (b.nodes k) →
      Round f (fun ks => val (value k ks)) (a.nodes k) (b.nodes k)
        (a.nodes k).entries (g k))
    (hfits : U.card < 2 ^ 32) : Is val (a.each g) U := by
  subst hU
  exact is_each _ ha hb hf ha.n_eq_sum hround hfits

theorem Is.eachMake (hf : f false false = false) (hU : merged f S T = U)
    (hround : ∀ k, Fits f (a.nodes k) (b.nodes k) →
      Round f (fun ks => val (value k ks)) (a.nodes k) (b.nodes k) 0 (g k))
    (hfits : U.card < 2 ^ 32) : Is val (create.each g) U := by
  subst hU
  exact is_each (fun _ => 0) ha hb hf (by simp [create]) hround hfits

theorem Is.unionMove (hST : (S ∪ T).card < 2 ^ 32) : Is val (a.unionMove b).1 (S ∪ T) := by
  rw [Map.unionMove]
  by_cases hn : b.n = 0
  · simpa [hn, hb.n_eq_zero.mp hn] using ha
  · rw [if_neg hn]
    refine ha.eachInplace hb rfl (merged_or S T) (fun k hfits => ?_) hST
    exact unionNd_round (ha.sound k) (hb.sound k) rfl hfits
      fun hnodes => unionWith_merges (fun _ _ _ => rfl) (hb.sound k) hnodes

theorem Is.differenceInplace (hS : S.card < 2 ^ 32) : Is val (a.differenceInplace b) (S \ T) := by
  have hST : (S \ T).card < 2 ^ 32 := Nat.lt_of_le_of_lt (card_le_card sdiff_subset) hS
  rw [Map.differenceInplace]
  by_cases hn : b.n = 0
  · simpa [hn, hb.n_eq_zero.mp hn] using ha
  · rw [if_neg hn]
    refine ha.eachInplace hb rfl (merged_diff S T) (fun k hfits => ?_) hST
    exact differenceNd_round (ha.sound k) hfits fun hnodes => removeAll_merges (hb.sound k) hnodes

theorem Is.intersectionInplace (hS : S.card < 2 ^ 32) :
    Is val (a.intersectionInplace b) (S ∩ T) := by
  have hST : (S ∩ T).card < 2 ^ 32 :=
    Nat.lt_of_le_of_lt (card_le_card Finset.inter_subset_left) hS
  refine ha.eachInplace hb rfl (merged_and S T) (fun k hfits => ?_) hST
  exact intersectionNd_round (ha.sound k) hfits fun hnodes => keepAll_merges (hb.sound k) hnodes

theorem Is.symmdiffMove (hST : (symmDiff S T).card < 2 ^ 32) :
    Is val (a.symmdiffMove b).1 (symmDiff S T) := by
  rw [Map.symmdiffMove]
  by_cases hn : b.n = 0
  · have hempty : symmDiff S ∅ = S := by simp [symmDiff]
    simpa [hn, hb.n_eq_zero.mp hn, hempty] using ha
  · rw [if_neg hn]
    refine ha.eachInplace hb rfl (merged_xor S T) (fun k hfits => ?_) hST
    exact symmdiffNd_round (ha.sound k) (hb.sound k) hfits
      fun hnodes => toggleAll_merges (hb.sound k) hnodes

end

theorem unionMakeNd_round {val : List Key → α} {aNd bNd : Node α} (ha : Sound val aNd)
    (hb : Sound val bNd) (hfits : Fits or aNd bNd) :
    Round or val aNd bNd 0 (unionMakeNd aNd bNd) := by
  obtain ⟨d, hdata, hsome, hval⟩ : ∃ d : Option α,
      (if aNd.data.isSome then aNd.data else bNd.data) = d ∧
      d.isSome = (aNd.data.isSome || bNd.data.isSome) ∧ ∀ x ∈ d, x = val [] := by
    cases hx : aNd.data with
    | none => exact ⟨bNd.data, rfl, by simp, hb.data⟩
    | some x => exact ⟨some x, rfl, rfl, hx ▸ ha.data⟩
  -- the copy of the first node with the data of either
  have hcopy : (if aNd.hasNodes then aNd.dup.withData d else .null d 0) = aNd.withData d := by
    cases hn : aNd.hasNodes with
    | true => rw [if_pos rfl, ha.dup_eq]
    | false =>
      cases aNd with
      | null d' s => rw [if_neg (by simp), ← ha.dup_eq, dup, Node.withData]
      | single | full => cases hn
  have hsz : (if aNd.hasNodes then ((aNd.withData d).sz : ℤ) else 0) = aNd.sz := by
    cases hn : aNd.hasNodes with
    | true => rw [if_pos rfl, sz_withData]
    | false => rw [if_neg (by simp), ha.sz, count_null hn, Nat.cast_zero]
  simp only [unionMakeNd, hdata, hcopy, hsz, hasNodes_withData, data_withData, hb.dup_eq]
  cases hbn : bNd.hasNodes with
  | false =>
    simp only [Bool.false_eq_true, if_false]
    refine Round.withData ha hval hsome (fun k => ?_) (by simp)
    rw [under_null hbn, merged_empty_right (by simp)]
  | true =>
    cases hn : aNd.hasNodes with
    | false =>
      have hzero : aNd.sz = 0 := ha.sz.trans (count_null hn)
      simp only [Bool.false_eq_true, if_false, if_true]
      refine Round.withData hb hval hsome (fun k => ?_) (by simp [hzero])
      rw [under_null hn, merged_empty_left (by simp)]
    | true =>
      refine (unionWith_merges (fun _ _ h => h.dup_eq) hb hbn).round ha hn hfits hval hsome ?_
      simp only [sz_withData, Node.unionMake]
      ring

theorem Is.unionMake (ha : Is val a S) (hb : Is val b T) (hST : (S ∪ T).card < 2 ^ 32) :
    Is val (a.unionMake b) (S ∪ T) := by
  rw [Map.unionMake]
  by_cases hn : a.n = 0 ∧ b.n = 0
  · simpa [hn, ha.n_eq_zero.mp hn.1, hb.n_eq_zero.mp hn.2] using is_create
  · rw [if_neg (by simpa using hn)]
    exact ha.eachMake hb rfl (merged_or S T)
      (fun k hfits => unionMakeNd_round (ha.sound k) (hb.sound k) hfits) hST

theorem Is.intersectionMake (ha : Is val a S) (hb : Is val b T) (hS : S.card < 2 ^ 32) :
    Is val (a.intersectionMake b) (S ∩ T) := by
  have hST : (S ∩ T).card < 2 ^ 32 :=
    Nat.lt_of_le_of_lt (card_le_card Finset.inter_subset_left) hS
  rw [Map.intersectionMake]
  by_cases hn : a.n = 0 ∨ b.n = 0
  · have hempty : S ∩ T = ∅ := by
      obtain h | h := hn
      · rw [ha.n_eq_zero.mp h, empty_inter]
      · rw [hb.n_eq_zero.mp h, inter_empty]
    rw [if_pos (by simpa using hn), hempty]
    exact is_create
  · rw [if_neg (by simpa using hn)]
    refine ha.eachMake hb rfl (merged_and S T) (fun k hfits => ?_) hST
    exact intersectionMakeNd_round (ha.sound k) (hb.sound k) fun hnodes hnodes' =>
      intersectionMake_makes false (ha.sound k) hnodes (hb.sound k) hnodes' hfits

variable [DecidableEq α]

theorem Is.differenceMake (ha : Is val a S) (hb : Is val b T) (hS : S.card < 2 ^ 32) :
    Is val (a.differenceMake b) (S \ T) := by
  have hST : (S \ T).card < 2 ^ 32 := Nat.lt_of_le_of_lt (card_le_card sdiff_subset) hS
  rw [Map.differenceMake]
  by_cases hn : a.n = 0
  · simpa [hn, ha.n_eq_zero.mp hn] using is_create
  · rw [if_neg hn]
    refine ha.eachMake hb rfl (merged_diff S T) (fun k hfits => ?_) hST
    exact differenceMakeNd_round (ha.sound k) (hb.sound k)
      fun hnodes _ => differenceMake_makes (ha.sound k) hnodes (hb.sound k) hfits

theorem Is.symmdiffMake (ha : Is val a S) (hb : Is val b T) (hST : (symmDiff S T).card < 2 ^ 32) :
    Is val (a.symmdiffMake b) (symmDiff S T) := by
  rw [Map.symmdiffMake]
  by_cases hn : a.n = 0 ∧ b.n = 0
  · simpa [hn, ha.n_eq_zero.mp hn.1, hb.n_eq_zero.mp hn.2] using is_create
  · rw [if_neg (by simpa using hn)]
    refine ha.eachMake hb rfl (merged_xor S T) (fun k hfits => ?_) hST
    exact symmdiffMakeNd_round (ha.sound k) (hb.sound k) fun hnodes hnodes' hne =>
      symmdiffMake_makes (ha.sound k) hnodes (hb.sound k) hnodes' hfits hne

end Map

end ThingsDB.Imap
