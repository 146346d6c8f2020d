import ThingsDB.Imap.Packed

/-!
# Unused ids

`imap_unused_id` looks for an id which is not in the map. A node with one child answers at once with
a number which is not below the child; in a full node the search goes down with the bound divided
by the number of nodes, and keeps the lowest of the answers.
-/

namespace ThingsDB.Imap

open Node List Finset

variable {α : Type}

def firstFree (nds : Key → Node α) : Option Key :=
  (List.finRange 32).find? fun i => (nds i).data.isNone

/-- The second loop of `imap__unused_id`: for each node what was found below it, or none if there
are no nodes below it. -/
def lowest (max : ℕ) (below : Key → Option ℕ) : List Key → ℕ → ℕ
  | [], low => low
  | k :: ks, low =>
    if 32 + k < max then
      match below k with
      | none => 32 + k
      | some r =>
        if r < max / 32 then
          if r = 0 then 32 + k
          else lowest max below ks (min ((r * 32 + (32 + k)) % 2 ^ 64) low)
        else lowest max below ks low
    else low

/-- `imap__unused_id`, for a node with nodes. -/
def Node.unusedId : Node α → ℕ → ℕ
  | .null _ _, _ => 0
  | .single _ _ key _, _ => if key = 0 then 1 else 0
  | .full _ _ f, max =>
    match firstFree f with
    | some i => i
    | none =>
      lowest max (fun k => if (f k).hasNodes then some ((f k).unusedId (max / 32)) else none)
        (List.finRange 32) max

/-- The second loop of `imap_unused_id`. -/
def firstUnused (max : ℕ) (below : Key → Option ℕ) : List Key → ℕ
  | [] => max
  | k :: ks =>
    if 32 + k < max then
      match below k with
      | none => 32 + k
      | some r =>
        if r < max / 32 ∧ (r * 32 + (32 + k)) % 2 ^ 64 < max then (r * 32 + (32 + k)) % 2 ^ 64
        else firstUnused max below ks
    else max

def Map.unusedId (m : Map α) (max : ℕ) : ℕ :=
  if m.n = 0 then 0
  else
    match firstFree m.nodes with
    | some i => if max < i then max else i
    | none =>
      firstUnused max
        (fun k => if (m.nodes k).hasNodes then some ((m.nodes k).unusedId (max / 32)) else none)
        (List.finRange 32)

section Ids

theorem keys_coe (k : Key) : keys k = [k] := keys_value k []

theorem keys_add_mul (k : Key) (t : ℕ) : keys (32 + k + 32 * t) = k :: keys t := by
  obtain ⟨j, js, rfl, hkeys⟩ := Bijective.exists_value (b := 32) t
  have hvalue : 32 + k + 32 * Bijective.value j js = Bijective.value k (j :: js) := by
    rw [Bijective.value]
    omega
  rw [hvalue, keys_value, keys, hkeys]

/-- An id is that of a node, or one below a node. -/
theorem id_cases (s : ℕ) : (∃ k : Key, s = k) ∨ ∃ (k : Key) (t : ℕ), s = 32 + k + 32 * t := by
  by_cases hs : s < 32
  · exact .inl ⟨⟨s, hs⟩, rfl⟩
  · refine .inr ⟨⟨s % 32, Nat.mod_lt s (by omega)⟩, s / 32 - 1, ?_⟩
    simp only
    omega

/-- What the search for an id gives: a free one, if it is below the bound, which is not larger than
every id in use unless it is the lowest. -/
structure Found (used : ℕ → Prop) (max r : ℕ) : Prop where
  free : r < max → ¬ used r
  low : ∀ s, s < max → ¬ used s → r ≤ s ∨ ∃ u, used u ∧ r < u

end Ids

variable {nds : Key → Node α} {ks : List Key} {k : Key} {max r : ℕ} {nd : Node α}

section Loops

variable {used : ℕ → Prop} {max : ℕ} {below : Key → Option ℕ}

/-- The ids in use below a node are below the bound which is given to it. -/
theorem lt_div {t : ℕ} (h : 32 + k + 32 * t < max) : t < max / 32 := by
  omega

/-- What the nodes answer is right for the ids below them. -/
structure Answers (used : ℕ → Prop) (max : ℕ) (below : Key → Option ℕ) : Prop where
  lt : ∀ s, used s → s < max
  ofNone : ∀ k, below k = none → ∀ t, ¬ used (32 + k + 32 * t)
  ofSome : ∀ k r, below k = some r → Found (fun t => used (32 + k + 32 * t)) (max / 32) r

section

variable (h : Answers used max below) (hr : below k = some r)

include h hr

/-- An id below a node which is not in use makes that the node has an answer below its bound. -/
theorem Answers.lt_of_free {t : ℕ}
    (ht : 32 + k + 32 * t < max) (hfree : ¬ used (32 + k + 32 * t)) : r < max / 32 := by
  obtain hle | ⟨u, hu, hlt⟩ := (h.ofSome k r hr).low t (lt_div ht) hfree
  · exact Nat.lt_of_le_of_lt hle (lt_div ht)
  · exact Nat.lt_trans hlt (lt_div (h.lt _ hu))

theorem Answers.low {t : ℕ} (ht : 32 + k + 32 * t < max) (hfree : ¬ used (32 + k + 32 * t)) :
    r * 32 + (32 + k) ≤ 32 + k + 32 * t ∨ ∃ u, used u ∧ r * 32 + (32 + k) < u := by
  obtain hle | ⟨u, hu, hlt⟩ := (h.ofSome k r hr).low t (lt_div ht) hfree
  · exact .inl (by omega)
  · exact .inr ⟨_, hu, by omega⟩

theorem Answers.free (hlt : r < max / 32) : ¬ used (r * 32 + (32 + k)) := by
  have hfree := (h.ofSome k r hr).free hlt
  rwa [show r * 32 + (32 + k) = 32 + k + 32 * r by omega]

end

theorem low_of_le {r' s : ℕ} (hle : r' ≤ r) (h : r ≤ s ∨ ∃ u, used u ∧ r < u) :
    r' ≤ s ∨ ∃ u, used u ∧ r' < u :=
  h.imp hle.trans fun ⟨u, hu, hlt⟩ => ⟨u, hu, hle.trans_lt hlt⟩

/-- When the ids of the nodes are in use, only those below the nodes matter. -/
theorem found_of_nodes (hdata : ∀ k : Key, used k) (hfree : r < max → ¬ used r)
    (hlow : ∀ (k : Key) (t : ℕ), 32 + k + 32 * t < max → ¬ used (32 + k + 32 * t) →
      r ≤ 32 + k + 32 * t ∨ ∃ u, used u ∧ r < u) : Found used max r := by
  refine ⟨hfree, fun s hs hsfree => ?_⟩
  obtain ⟨k, rfl⟩ | ⟨k, t, rfl⟩ := id_cases s
  · exact absurd (hdata k) hsfree
  · exact hlow k t hs hsfree

theorem le_of_mem_cons (hks : (k :: ks).Pairwise (· < ·)) : ∀ i ∈ k :: ks, (k : ℕ) ≤ i := by
  intro i hi
  cases hi with
  | head => exact le_refl _
  | tail _ hi => exact le_of_lt (Fin.lt_def.mp (rel_of_pairwise_cons hks hi))

/-- After a node was seen, what held of the nodes seen before holds of one node more. -/
theorem forall_seen {P : Key → Prop} (hk : P k) (h : ∀ i ∉ k :: ks, P i) : ∀ i ∉ ks, P i := by
  intro i hi
  by_cases hik : i = k
  · exact hik ▸ hk
  · exact h i (by simp [hik, hi])

/-- The loop of a node, when the nodes which are not in the list were seen. -/
theorem lowest_found (h : Answers used max below) (hmax : max + 64 ≤ 2 ^ 64)
    (hdata : ∀ k : Key, used k) (hks : ks.Pairwise (· < ·)) {low : ℕ}
    (hlow : low < max → ¬ used low)
    (hdone : ∀ k ∉ ks, ∀ t, 32 + k + 32 * t < max → ¬ used (32 + k + 32 * t) →
      low ≤ 32 + k + 32 * t ∨ ∃ u, used u ∧ low < u)
    (hzero : ∀ k ∉ ks, ¬ used (32 + k) → ∃ u, used u ∧ 64 ≤ u) :
    Found used max (lowest max below ks low) := by
  induction ks generalizing low with
  | nil => exact found_of_nodes hdata hlow fun k => hdone k not_mem_nil
  | cons k ks ih =>
    have htail := hks.of_cons
    have hrest := le_of_mem_cons hks
    -- the id of the node itself comes before those of the nodes which were not seen
    have hself : ¬ used (32 + k) → Found used max (32 + k) := by
      intro hfree
      refine found_of_nodes hdata (fun _ => hfree) fun i t hs hsfree => ?_
      by_cases hi : i ∈ k :: ks
      · exact .inl (by have := hrest i hi; omega)
      · cases t with
        | zero =>
          obtain ⟨u, hu, hle⟩ := hzero i hi (by simpa using hsfree)
          exact .inr ⟨u, hu, by omega⟩
        | succ t => exact .inl (by omega)
    rw [lowest]
    by_cases hk : 32 + (k : ℕ) < max
    · rw [if_pos hk]
      cases hbelow : below k with
      | none => exact hself (h.ofNone k hbelow 0)
      | some r =>
        simp only
        have hkzero : r ≠ 0 → ¬ used (32 + k) → ∃ u, used u ∧ 64 ≤ u := by
          intro hr hfree
          obtain hle | ⟨u, hu, hlt⟩ := h.low (t := 0) hbelow (by omega) (by simpa using hfree)
          · omega
          · exact ⟨u, hu, by omega⟩
        by_cases hr : r < max / 32
        · rw [if_pos hr]
          by_cases hr0 : r = 0
          · rw [if_pos hr0]
            refine hself ?_
            have := h.free hbelow hr
            simpa [hr0] using this
          · rw [if_neg hr0, Nat.mod_eq_of_lt (by omega)]
            refine ih htail ?_ (forall_seen (k := k) ?_ ?_) (forall_seen (hkzero hr0) hzero)
            · intro hlt
              obtain heq | heq := min_choice (r * 32 + (32 + (k : ℕ))) low
              · rw [heq]
                exact h.free hbelow hr
              · rw [heq] at hlt ⊢
                exact hlow hlt
            · exact fun t ht hfree => low_of_le (Nat.min_le_left _ _) (h.low hbelow ht hfree)
            · exact fun i hi t ht hfree => low_of_le (Nat.min_le_right _ _) (hdone i hi t ht hfree)
        · rw [if_neg hr]
          refine ih htail hlow (forall_seen ?_ hdone) (forall_seen (hkzero (by omega)) hzero)
          exact fun t ht hfree => absurd (h.lt_of_free hbelow ht hfree) hr
    · rw [if_neg hk]
      refine found_of_nodes hdata hlow fun i t hs => hdone i (fun hi => ?_) t hs
      have := hrest i hi
      omega

/-- The loop of the map, when the ids below the nodes which are not in the list are in use. -/
theorem firstUnused_spec (h : Answers used max below)
    (hwrap : ∀ k r, below k = some r → r < max / 32 → r * 32 + (32 + k) < 2 ^ 64)
    (hdata : ∀ k : Key, used k) (hks : ks.Pairwise (· < ·))
    (hdone : ∀ k ∉ ks, ∀ t, 32 + k + 32 * t < max → used (32 + k + 32 * t)) :
    (firstUnused max below ks < max ∧ ¬ used (firstUnused max below ks)) ∨
      (firstUnused max below ks = max ∧ ∀ s, s < max → used s) := by
  induction ks with
  | nil =>
    refine .inr ⟨rfl, fun s hs => ?_⟩
    obtain ⟨k, rfl⟩ | ⟨k, t, rfl⟩ := id_cases s
    · exact hdata k
    · exact hdone k not_mem_nil t hs
  | cons k ks ih =>
    rw [firstUnused]
    by_cases hk : 32 + (k : ℕ) < max
    · rw [if_pos hk]
      cases hbelow : below k with
      | none => exact .inl ⟨hk, h.ofNone k hbelow 0⟩
      | some r =>
        simp only
        by_cases hr : r < max / 32 ∧ (r * 32 + (32 + (k : ℕ))) % 2 ^ 64 < max
        · rw [if_pos hr]
          refine .inl ⟨hr.2, ?_⟩
          rw [Nat.mod_eq_of_lt (hwrap k r hbelow hr.1)]
          exact h.free hbelow hr.1
        · rw [if_neg hr]
          refine ih hks.of_cons (forall_seen (fun t ht => ?_) hdone)
          by_contra hfree
          have hlt := h.lt_of_free hbelow ht hfree
          refine hr ⟨hlt, ?_⟩
          rw [Nat.mod_eq_of_lt (hwrap k r hbelow hlt)]
          obtain hle | ⟨u, hu, hless⟩ := h.low hbelow ht hfree
          · exact Nat.lt_of_le_of_lt hle ht
          · exact Nat.lt_trans hless (h.lt u hu)
    · rw [if_neg hk]
      refine .inr ⟨rfl, fun s hs => ?_⟩
      obtain ⟨i, rfl⟩ | ⟨i, t, rfl⟩ := id_cases s
      · exact hdata i
      · refine hdone i (fun hi => ?_) t hs
        have := le_of_mem_cons hks i hi
        omega

end Loops

section Nodes

theorem firstFree_some {i : Key} (h : firstFree nds = some i) :
    (nds i).data = none ∧ ∀ k < i, (nds k).data.isSome := by
  rw [firstFree, find?_eq_some_iff_getElem] at h
  obtain ⟨hi, j, hj, heq, hbefore⟩ := h
  refine ⟨by simpa using hi, fun k hk => ?_⟩
  simp only [getElem_finRange] at heq hbefore
  have := hbefore k (by subst heq; exact hk)
  simpa [Option.isSome_iff_ne_none] using this

theorem firstFree_none (h : firstFree nds = none) (k : Key) : (nds k).data.isSome := by
  rw [firstFree, find?_eq_none] at h
  have := h k (mem_finRange k)
  simpa [Option.isSome_iff_ne_none] using this

theorem pairwise_finRange : (finRange 32).Pairwise (· < ·) := pairwise_lt_finRange 32

/-- The nodes below give the right answers if each of them does. -/
theorem answers_of_nodes {used : ℕ → Prop}
    (hused : ∀ (k : Key) (t : ℕ), used (32 + k + 32 * t) ↔ keys t ∈ (nds k).paths)
    (hlt : ∀ s, used s → s < max) (hnds : ∀ k, (nds k).Packed)
    (hfound : ∀ k, (nds k).hasNodes → (∀ s, keys s ∈ (nds k).paths → s < max / 32) →
      Found (fun s => keys s ∈ (nds k).paths) (max / 32) ((nds k).unusedId (max / 32))) :
    Answers used max fun k =>
      if (nds k).hasNodes then some ((nds k).unusedId (max / 32)) else none := by
  refine ⟨hlt, fun k hk t ht => ?_, fun k r hk => ?_⟩
  · have hnone : (nds k).hasNodes = false := by
      cases hn : (nds k).hasNodes with
      | false => rfl
      | true => simp [hn] at hk
    obtain ⟨j, js, -, hkeys⟩ := Bijective.exists_value (b := 32) t
    rw [hused, keys, hkeys] at ht
    exact absurd ((hnds k).nodes.mpr (count_pos ht)) (by simp [hnone])
  · cases hn : (nds k).hasNodes with
    | false => simp [hn] at hk
    | true =>
      simp only [hn, if_true, Option.some.injEq] at hk
      subst hk
      have := hfound k hn fun s hs => lt_div (hlt _ ((hused k s).mpr hs))
      exact ⟨fun hr => by rw [hused]; exact this.free hr, fun s hs hfree => by
        simpa only [hused] using this.low s hs (by rwa [← hused])⟩

theorem exists_used_of_count_pos (h : 0 < nd.count) : ∃ u, keys u ∈ nd.paths := by
  rw [Node.count] at h
  obtain ⟨k, -, hk⟩ := exists_ne_zero_of_sum_ne_zero (Nat.pos_iff_ne_zero.mp h)
  obtain ⟨p, hp⟩ := card_ne_zero.mp hk
  refine ⟨Bijective.value k p, ?_⟩
  rw [keys_value, cons_mem_paths]
  exact hp

/-- The search below a node. -/
theorem Node.Packed.found (h : nd.Packed) (hn : nd.hasNodes)
    (hmax : max + 64 ≤ 2 ^ 64) (hlt : ∀ s, keys s ∈ nd.paths → s < max) :
    Found (fun s => keys s ∈ nd.paths) max (nd.unusedId max) := by
  induction nd generalizing max with
  | null d s => cases hn
  | single d s key c ih =>
    have hother : ∀ k : Key, k ≠ key → keys k ∉ (Node.single d s key c).paths := by
      intro k hk hmem
      rw [keys_coe, cons_mem_paths, Node.under, ensureNode_single_ne (Ne.symm hk)] at hmem
      simp [Node.empty, Node.paths] at hmem
    rw [Node.unusedId]
    by_cases hkey : key = 0
    · rw [if_pos hkey]
      refine ⟨fun _ => hother 1 (by rw [hkey]; decide), fun t ht hfree => ?_⟩
      by_cases ht0 : t = 0
      · -- the id 0 is free itself, but another one below its node is in use
        obtain ⟨u, hu⟩ := exists_used_of_count_pos (h.nodes.mp hn)
        refine .inr ⟨u, hu, ?_⟩
        have hne0 : u ≠ 0 := by
          rintro rfl
          exact hfree (ht0 ▸ hu)
        have hne1 : u ≠ 1 := by
          rintro rfl
          exact hother 1 (by rw [hkey]; decide) hu
        omega
      · exact .inl (by omega)
    · rw [if_neg hkey]
      exact ⟨fun _ => hother 0 (Ne.symm hkey), fun t _ _ => .inl (Nat.zero_le t)⟩
  | full d s f ih =>
    have hused : ∀ (k : Key) (t : ℕ),
        keys (32 + k + 32 * t) ∈ (Node.full d s f).paths ↔ keys t ∈ (f k).paths := by
      intro k t
      rw [keys_add_mul, cons_mem_paths, Node.under, ensureNode_full]
    have hself : ∀ k : Key, keys k ∈ (Node.full d s f).paths ↔ (f k).data.isSome = true := by
      intro k
      rw [keys_coe, cons_mem_paths, Node.under, ensureNode_full, nil_mem_paths]
    rw [Node.unusedId]
    cases hfirst : firstFree f with
    | some i =>
      obtain ⟨hi, hbefore⟩ := firstFree_some hfirst
      simp only
      refine ⟨fun _ => by rw [hself, hi]; simp, fun t ht hfree => .inl ?_⟩
      by_contra hlow
      have hlt : t < i := by omega
      have hk := hbefore ⟨t, by omega⟩ (Fin.lt_def.mpr hlt)
      exact hfree ((hself ⟨t, by omega⟩).mpr hk)
    | none =>
      have hdata : ∀ k : Key, keys k ∈ (Node.full d s f).paths := fun k =>
        (hself k).mpr (firstFree_none hfirst k)
      have hkids : ∀ k, (f k).Packed := fun k => h.kids (k := k) rfl
      have hanswers := answers_of_nodes hused hlt hkids fun k hk hless =>
        ih k (hkids k) hk (by omega) hless
      refine lowest_found hanswers hmax hdata pairwise_finRange
        (fun hm => absurd hm (by omega)) ?_ ?_
      · intro k hk
        exact absurd (mem_finRange k) hk
      · intro k hk
        exact absurd (mem_finRange k) hk

/-- A node does not have so many entries that the id of its answer would need more than 64 bits. -/
theorem Node.Packed.answer_fits (h : nd.Packed) (k : Key)
    (hmax : max < 2 ^ 64) (hlt : ∀ s, keys s ∈ nd.paths → s < max / 32)
    (hfound : Found (fun s => keys s ∈ nd.paths) (max / 32) r) (hr : r < max / 32) :
    r * 32 + (32 + k) < 2 ^ 64 := by
  by_contra hge
  have hlast : r + 1 = max / 32 := by omega
  have hall : ∀ t < r, keys t ∈ nd.paths := by
    intro t ht
    by_contra hfree
    obtain hle | ⟨u, hu, hless⟩ := hfound.low t (by omega) hfree
    · omega
    · have := hlt u hu
      omega
  have hsub : (Finset.range r).image keys ⊆ nd.paths := by
    intro p hp
    obtain ⟨t, ht, rfl⟩ := mem_image.mp hp
    exact hall t (Finset.mem_range.mp ht)
  have hcard := card_le_card hsub
  rw [card_image_of_injective _ keys_injective, card_range, card_paths] at hcard
  have hle := h.le
  have hone : (if nd.data.isSome then 1 else 0) ≤ 1 := by split <;> omega
  omega

end Nodes

namespace Map

variable {m : Map α}

theorem get_isSome (m : Map α) (k : Key) (ks : List Key) :
    (m.get (Bijective.value k ks)).isSome ↔ ks ∈ (m.nodes k).paths := by
  rw [get, keys_value, mem_paths]

theorem get_coe (m : Map α) (k : Key) : (m.get k).isSome ↔ (m.nodes k).data.isSome := by
  rw [get, keys_coe]
  rfl

theorem get_add_mul (m : Map α) (k : Key) (t : ℕ) :
    (m.get (32 + k + 32 * t)).isSome ↔ keys t ∈ (m.nodes k).paths := by
  rw [get, keys_add_mul, mem_paths]

theorem Packed.get_eq_none (h : Packed m) (hn : m.n = 0) (id : ℕ) : m.get id = none := by
  obtain ⟨k, ks, rfl, -⟩ := Bijective.exists_value (b := 32) id
  have hle := h.le
  rw [hn, Nat.le_zero, Finset.sum_eq_zero_iff] at hle
  have hempty := card_eq_zero.mp (hle k (mem_univ k))
  rw [← Option.not_isSome_iff_eq_none, get_isSome, hempty]
  exact notMem_empty ks

/-- What is found is a free id below the bound, or the bound if there is no free one. -/
theorem Packed.unusedId (h : Packed m) (hmax : max < 2 ^ 64)
    (hids : ∀ id, (m.get id).isSome → id < max) :
    (m.unusedId max < max ∧ ¬ (m.get (m.unusedId max)).isSome) ∨
      (m.unusedId max = max ∧ ∀ id, id < max → (m.get id).isSome) := by
  rw [Map.unusedId]
  by_cases hn : m.n = 0
  · rw [if_pos hn]
    cases max with
    | zero => exact .inr ⟨rfl, fun id hid => absurd hid (Nat.not_lt_zero id)⟩
    | succ max => exact .inl ⟨Nat.succ_pos max, by simp [h.get_eq_none hn]⟩
  · rw [if_neg hn]
    cases hfirst : firstFree m.nodes with
    | some i =>
      simp only
      obtain ⟨hi, hbefore⟩ := firstFree_some hfirst
      by_cases hlt : (i : ℕ) < max
      · rw [if_neg (by omega)]
        refine .inl ⟨hlt, ?_⟩
        rw [get_coe, hi]
        simp
      · have hres : (if max < i then max else (i : ℕ)) = max := by
          split <;> omega
        rw [hres]
        refine .inr ⟨rfl, fun id hid => ?_⟩
        exact (get_coe m ⟨id, by omega⟩).mpr
          (hbefore ⟨id, by omega⟩ (Fin.lt_def.mpr (by simp; omega)))
    | none =>
      simp only
      have hfound : ∀ k, (m.nodes k).hasNodes = true →
          (∀ s, keys s ∈ (m.nodes k).paths → s < max / 32) →
          Found (fun s => keys s ∈ (m.nodes k).paths) (max / 32)
            ((m.nodes k).unusedId (max / 32)) := fun k hk hless =>
        (h.nodes k).found hk (by omega) hless
      have hanswers := answers_of_nodes (get_add_mul m) hids h.nodes hfound
      refine firstUnused_spec hanswers ?_ ?_ pairwise_finRange ?_
      · intro k r hk hr
        cases hnodes : (m.nodes k).hasNodes with
        | false => simp [hnodes] at hk
        | true =>
          simp only [hnodes, if_true, Option.some.injEq] at hk
          have hless : ∀ s, keys s ∈ (m.nodes k).paths → s < max / 32 := fun s hs =>
            lt_div (hids _ ((get_add_mul m k s).mpr hs))
          exact (h.nodes k).answer_fits k hmax hless (hk ▸ hfound k hnodes hless) hr
      · exact fun k => (get_coe m k).mpr (firstFree_none hfirst k)
      · intro k hk
        exact absurd (mem_finRange k) hk

/-- In every map which is made with `imap_add` and `imap_pop`, an id below the bound is found which
is not in the map iff there is one, and else the bound is given. -/
theorem unusedId_finds_free (h : Reached m) {max : ℕ} (hmax : max < 2 ^ 64)
    (hids : ∀ id, m.get id ≠ none → id < max) :
    ((∃ id < max, m.get id = none) → m.unusedId max < max ∧ m.get (m.unusedId max) = none) ∧
      ((¬ ∃ id < max, m.get id = none) → m.unusedId max = max) := by
  have hspec := h.packed.unusedId hmax fun id hid =>
    hids id (Option.isSome_iff_ne_none.mp hid)
  simp only [Option.not_isSome_iff_eq_none] at hspec
  refine ⟨?_, fun hnone => ?_⟩
  · rintro ⟨id, hid, hfree⟩
    obtain hfound | ⟨-, hall⟩ := hspec
    · exact hfound
    · have := hall id hid
      simp [hfree] at this
  · obtain ⟨hlt, hfree⟩ | ⟨heq, -⟩ := hspec
    · exact absurd ⟨_, hlt, hfree⟩ hnone
    · exact heq

/-- Two ids are added and one of them is removed again. -/
theorem unusedId_finds_free_two :
    let m : Map Unit := (((create.add 0 ()).1.add 1 ()).1.pop 0).1
    m.unusedId 2 < 2 ∧ m.get (m.unusedId 2) = none := by
  intro m
  have hempty : Is (fun _ => ()) (create : Map Unit) ∅ := is_create
  have hm : Is (fun _ => ()) m {1} :=
    (((hempty.add 0 (by decide)).add 1 (by decide)).pop 0 (by decide)).1
  have hreached : Reached m := ((Reached.create.add 0 () (by decide)).add 1 () (by decide)).pop 0
  refine (unusedId_finds_free hreached (by decide) fun id hid => ?_).1 ⟨0, by decide, ?_⟩
  · rw [hm.get_eq] at hid
    have hmem : id ∈ ({1} : Finset ℕ) := by
      by_contra hnot
      exact hid (if_neg hnot)
    have := Finset.mem_singleton.mp hmem
    omega
  · rw [hm.get_eq]
    decide

end Map

end ThingsDB.Imap
