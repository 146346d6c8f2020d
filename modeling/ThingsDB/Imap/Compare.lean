import ThingsDB.Imap.Built

/-!
# Comparing maps

If only the first of two nodes is full, then a child of it which the other node does not have is
seen by the comparison only if there are entries below that child: its own entry is overlooked.
-/

namespace ThingsDB.Imap

open Paths List Finset

variable {α : Type}

namespace Node

/-- An entry which `imap__le` does not look for: the node which should have it has one child only,
under another key, and there is nothing below the entry. -/
def Hidden : List Key → Node α → Node α → Prop
  | [], _, _ => False
  | k :: ks, a, b =>
    match b.getNode k with
    | none => b.hasNodes = true ∧ a.isFull = true ∧ ks = [] ∧ (a.ensureNode k).sz = 0
    | some bNd => Hidden ks (a.ensureNode k) bNd

/-- The nodes at the same place below two nodes which are compared, and have at most as many
entries below them in the first one. -/
def Fewer (a b : Node α) : Prop :=
  ∀ k p a' b', a.walk (k :: p) = some a' → b.walk (k :: p) = some b' → a'.sz ≤ b'.sz

/-- The entries below a node are entries below the other one, or hidden. -/
def Covered (a b : Node α) : Prop :=
  ∀ k p, k :: p ∈ a.paths → k :: p ∈ b.paths ∨ Hidden (k :: p) a b

def KidLe (a b : Node α) : Prop :=
  (∀ p a' b', a.walk p = some a' → b.walk p = some b' → a'.sz ≤ b'.sz) ∧
    ∀ p ∈ a.paths, p ∈ b.paths ∨ Hidden p a b

variable {a b : Node α} {val : List Key → α}

theorem kidLe_iff : KidLe a b ↔
    a.sz ≤ b.sz ∧ (a.data.isSome → b.data.isSome) ∧ Fewer a b ∧ Covered a b := by
  constructor
  · rintro ⟨hsz, hpaths⟩
    refine ⟨hsz [] a b rfl rfl, fun hdata => ?_, fun k p => hsz (k :: p),
      fun k p => hpaths (k :: p)⟩
    obtain h | h := hpaths [] ((nil_mem_paths a).mpr hdata)
    · exact (nil_mem_paths b).mp h
    · exact h.elim
  · rintro ⟨hsz, hdata, hfewer, hcovered⟩
    constructor
    · intro p a' b' ha' hb'
      cases p with
      | nil =>
        cases ha'
        cases hb'
        exact hsz
      | cons k p => exact hfewer k p a' b' ha' hb'
    · intro p hp
      cases p with
      | nil => exact .inl ((nil_mem_paths b).mpr (hdata ((nil_mem_paths a).mp hp)))
      | cons k p => exact hcovered k p hp

def KeyLe (a b : Node α) (k : Key) : Prop :=
  ∀ aNd, a.getNode k = some aNd →
    match b.getNode k with
    | some bNd => KidLe aNd bNd
    | none => if b.hasNodes && a.isFull then aNd.sz = 0 else aNd.paths = ∅

theorem sz_eq_zero_iff (ha : Sound val a) : a.sz = 0 ↔ ∀ p ∈ a.paths, p = [] := by
  rw [ha.sz]
  constructor
  · intro h p hp
    cases p with
    | nil => rfl
    | cons k p => exact absurd h (Nat.pos_iff_ne_zero.mp (count_pos hp))
  · intro h
    rw [count, Finset.sum_eq_zero_iff]
    intro k _
    rw [card_eq_zero, eq_empty_iff_forall_notMem]
    intro p hp
    cases h (k :: p) ((cons_mem_paths a k p).mpr hp)

/-- The entries below two nodes, key by key. -/
theorem fewer_covered_iff (ha : Sound val a) : Fewer a b ∧ Covered a b ↔ ∀ k, KeyLe a b k := by
  constructor
  · rintro ⟨hfewer, hcovered⟩ k aNd haNd
    cases hbNd : b.getNode k with
    | some bNd =>
      refine ⟨fun p a' b' ha' hb' => hfewer k p a' b' ?_ ?_, fun p hp => ?_⟩
      · simpa [walk, haNd] using ha'
      · simpa [walk, hbNd] using hb'
      · have h := hcovered k p ((cons_mem_paths a k p).mpr (by rwa [under_of_some haNd]))
        rwa [cons_mem_paths, under_of_some hbNd, Hidden, hbNd, ensureNode_eq_of_some haNd] at h
    | none =>
      have hall : ∀ p ∈ aNd.paths,
          b.hasNodes = true ∧ a.isFull = true ∧ p = [] ∧ aNd.sz = 0 := by
        intro p hp
        have h := hcovered k p ((cons_mem_paths a k p).mpr (by rwa [under_of_some haNd]))
        rw [cons_mem_paths, under_of_none hbNd, Hidden, hbNd, ensureNode_eq_of_some haNd] at h
        exact h.resolve_left (notMem_empty p)
      by_cases hflags : (b.hasNodes && a.isFull) = true
      · simp only [hflags, if_true]
        exact (sz_eq_zero_iff (ha.kids haNd)).mpr fun p hp => (hall p hp).2.2.1
      · simp only [hflags, Bool.false_eq_true, if_false]
        rw [eq_empty_iff_forall_notMem]
        intro p hp
        obtain ⟨hb, hfull, -⟩ := hall p hp
        exact hflags (by simp [hb, hfull])
  · intro h
    constructor
    · intro k p a' b' ha' hb'
      obtain ⟨aNd, haNd, ha'⟩ := Option.bind_eq_some_iff.mp ha'
      obtain ⟨bNd, hbNd, hb'⟩ := Option.bind_eq_some_iff.mp hb'
      have hk := h k aNd haNd
      simp only [hbNd] at hk
      exact hk.1 p a' b' ha' hb'
    · intro k p hp
      obtain ⟨aNd, haNd⟩ : ∃ aNd, a.getNode k = some aNd := by
        cases hget : a.getNode k with
        | some aNd => exact ⟨aNd, rfl⟩
        | none =>
          rw [cons_mem_paths, under_of_none hget] at hp
          exact absurd hp (notMem_empty p)
      rw [cons_mem_paths, under_of_some haNd] at hp
      have hk := h k aNd haNd
      rw [cons_mem_paths, Hidden, ensureNode_eq_of_some haNd]
      cases hbNd : b.getNode k with
      | some bNd =>
        simp only [hbNd] at hk
        rw [under_of_some hbNd]
        exact hk.2 p hp
      | none =>
        simp only [hbNd] at hk
        by_cases hflags : (b.hasNodes && a.isFull) = true
        · simp only [hflags, if_true] at hk
          obtain ⟨hb, hfull⟩ := Bool.and_eq_true_iff.mp hflags
          exact .inr ⟨hb, hfull, (sz_eq_zero_iff (ha.kids haNd)).mp hk p hp, hk⟩
        · simp only [hflags, Bool.false_eq_true, if_false] at hk
          rw [hk] at hp
          exact absurd hp (notMem_empty p)

/-- `imap__le` tells whether the entries are covered and the counts do not show a difference. -/
def ComparesLe (val : List Key → α) (a : Node α) : Prop :=
  ∀ b, Sound val b → a.hasNodes = true → b.hasNodes = true →
    (a.le b = true ↔ Fewer a b ∧ Covered a b)

theorem hasNodes_of_covered (ha : Sound val a) (hn : a.hasNodes) (h : Covered a b) :
    b.hasNodes := by
  cases hb : b.hasNodes with
  | true => rfl
  | false =>
    exfalso
    have hzero : a.count = 0 := by
      rw [count, Finset.sum_eq_zero_iff]
      intro k _
      rw [card_eq_zero, eq_empty_iff_forall_notMem]
      intro p hp
      obtain hmem | hhidden := h k p ((cons_mem_paths a k p).mpr hp)
      · rw [cons_mem_paths, under_null hb] at hmem
        exact notMem_empty p hmem
      · rw [Hidden, getNode_null hb] at hhidden
        rw [hb] at hhidden
        exact absurd hhidden.1 (by simp)
    exact Nat.pos_iff_ne_zero.mp (ha.sz_pos hn) hzero

/-- The test on the nodes of a child. -/
theorem nodesLe_iff (hcmp : ComparesLe val a) (ha : Sound val a) (hb : Sound val b) :
    (a.hasNodes = false ∨ b.hasNodes ∧ a.le b) ↔ Fewer a b ∧ Covered a b := by
  cases hn : a.hasNodes with
  | false =>
    refine ⟨fun _ => ⟨fun k p a' b' ha' _ => ?_, fun k p hp => ?_⟩, fun _ => .inl rfl⟩
    · rw [walk, getNode_null hn] at ha'
      cases ha'
    · rw [cons_mem_paths, under_null hn] at hp
      exact absurd hp (notMem_empty p)
  | true =>
    constructor
    · rintro (h | ⟨hbn, hrec⟩)
      · cases h
      · exact (hcmp b hb hn hbn).mp hrec
    · intro h
      have hbn := hasNodes_of_covered ha hn h.2
      exact .inr ⟨hbn, (hcmp b hb hn hbn).mpr h⟩

theorem or_iff_imp (x y : Bool) : (x = false ∨ y) ↔ (x → y) := by
  cases x <;> simp

theorem leNd_iff (hcmp : ComparesLe val a) (ha : Sound val a) (hb : Sound val b) :
    leNd a.le a b ↔ KidLe a b := by
  rw [kidLe_iff, leNd]
  simp only [Bool.and_eq_true, decide_eq_true_eq, Bool.or_eq_true, Bool.not_eq_true']
  rw [or_iff_imp, and_assoc, nodesLe_iff hcmp ha hb]

theorem mem_paths_walk {nd c : Node α} {p : List Key} (h : nd.walk p = some c) (q : List Key) :
    q ∈ c.paths ↔ p ++ q ∈ nd.paths := by
  induction p generalizing nd with
  | nil =>
    cases h
    rfl
  | cons k p ih =>
    obtain ⟨kid, hget, hwalk⟩ := Option.bind_eq_some_iff.mp h
    rw [ih hwalk, cons_append, cons_mem_paths, under_of_some hget]

theorem Sound.comparesLe (ha : Sound val a) : ComparesLe val a := by
  induction a generalizing val with
  | null d s => exact fun b hb hn => by cases hn
  | single d s key nd ih =>
    intro b hb hn hbn
    have hnd := ha.kids (k := key) (if_pos rfl)
    rw [fewer_covered_iff ha]
    -- only the key of the child is left to be compared
    have hkeys : (∀ k, KeyLe (.single d s key nd) b k) ↔ KeyLe (.single d s key nd) b key := by
      refine ⟨fun h => h key, fun h k aNd hget => ?_⟩
      obtain rfl := key_of_getNode hget
      exact h aNd hget
    have hself : (Node.single d s key nd).getNode key = some nd := if_pos rfl
    have hpos : nd.paths ≠ ∅ := by
      intro hempty
      have hcount := ha.sz_pos hn
      rw [count_single, hempty] at hcount
      exact absurd hcount (Nat.lt_irrefl 0)
    rw [hkeys]
    cases b with
    | null d' s' => cases hbn
    | single d' s' key' nd' =>
      have hnd' := hb.kids (k := key') (if_pos rfl)
      simp only [le, Bool.and_eq_true, decide_eq_true_eq, KeyLe, hself, Option.some.injEq,
        forall_eq']
      by_cases hkey : key = key'
      · subst hkey
        simp only [getNode, if_true, true_and]
        exact leNd_iff (ih hnd) hnd hnd'
      · simp only [getNode, Ne.symm hkey, hkey, if_false, false_and, isFull,
          Bool.false_eq_true, false_iff]
        exact hpos
    | full d' s' nds =>
      have hnd' := hb.kids (k := key) rfl
      simp only [le, KeyLe, hself, Option.some.injEq, forall_eq']
      exact leNd_iff (ih hnd) hnd hnd'
  | full d s nds ih =>
    intro b hb hn hbn
    rw [fewer_covered_iff ha]
    cases b with
    | null d' s' => cases hbn
    | single d' s' key nd =>
      have hnd := hb.kids (k := key) (if_pos rfl)
      simp only [le, all_eq_true, mem_finRange, true_imp_iff]
      refine forall_congr' fun k => ?_
      have hk := ha.kids (k := k) rfl
      by_cases hkey : key = k
      · subst hkey
        simp only [if_true, KeyLe, getNode, Option.some.injEq, forall_eq']
        exact leNd_iff (ih key hk) hk hnd
      · simp only [hkey, if_false, decide_eq_true_eq, KeyLe, getNode, Option.some.injEq, forall_eq',
          hasNodes, isFull, Bool.and_self, if_true]
    | full d' s' nds' =>
      simp only [le, all_eq_true, mem_finRange, true_imp_iff]
      refine forall_congr' fun k => ?_
      have hk := ha.kids (k := k) rfl
      simp only [KeyLe, getNode, Option.some.injEq, forall_eq']
      exact leNd_iff (ih k hk) hk (hb.kids (k := k) rfl)

section Eq

variable [DecidableEq α]

theorem leNd_of_eqNd (hrec : ∀ b, a.eq b → a.le b) (h : eqNd a.eq a b) : leNd a.le a b := by
  simp only [eqNd, Bool.and_eq_true, decide_eq_true_eq, Bool.or_eq_true, Bool.not_eq_true'] at h
  obtain ⟨⟨⟨hsz, hdata⟩, hnodes⟩, heq⟩ := h
  simp only [leNd, Bool.and_eq_true, decide_eq_true_eq, Bool.or_eq_true, Bool.not_eq_true']
  refine ⟨⟨hsz.le, ?_⟩, ?_⟩
  · rw [hdata]
    cases b.data.isSome <;> simp
  · obtain hn | heq := heq
    · exact .inl hn
    · cases hn : a.hasNodes with
      | false => exact .inl rfl
      | true => exact .inr ⟨hnodes ▸ hn, hrec b heq⟩

/-- What is found to be equal is found to be included. -/
theorem le_of_eq (h : a.eq b) : a.le b := by
  induction a generalizing b with
  | null d s => cases h
  | single d s key nd ih =>
    cases b with
    | null d' s' => cases h
    | single d' s' key' nd' =>
      simp only [eq, Bool.and_eq_true, decide_eq_true_eq] at h
      simp only [le, Bool.and_eq_true, decide_eq_true_eq]
      exact ⟨h.1, leNd_of_eqNd (fun _ => ih) h.2⟩
    | full d' s' nds =>
      simp only [eq, all_eq_true, mem_finRange, true_imp_iff] at h
      have hkey := h key
      rw [if_pos rfl] at hkey
      exact leNd_of_eqNd (fun _ => ih) hkey
  | full d s nds ih =>
    cases b with
    | null d' s' => cases h
    | single d' s' key nd =>
      simp only [eq, all_eq_true, mem_finRange, true_imp_iff] at h
      simp only [le, all_eq_true, mem_finRange, true_imp_iff]
      intro k
      have hk := h k
      by_cases hkey : key = k
      · rw [if_pos hkey] at hk ⊢
        exact leNd_of_eqNd (fun _ => ih k) hk
      · rw [if_neg hkey] at hk ⊢
        exact hk
    | full d' s' nds' =>
      simp only [eq, all_eq_true, mem_finRange, true_imp_iff] at h
      simp only [le, all_eq_true, mem_finRange, true_imp_iff]
      exact fun k => leNd_of_eqNd (fun _ => ih k) (h k)

end Eq

end Node

namespace Map

open Node

def Has (m : Map α) (id : ℕ) : Prop := (m.get id).isSome = true

/-- An id which the comparison does not look for in the second map. -/
def Overlooked (a b : Map α) (id : ℕ) : Prop :=
  match keys id with
  | [] => False
  | k :: ks => Hidden ks (a.nodes k) (b.nodes k)

/-- No count shows that there is more in the first map. -/
def Fewer (a b : Map α) : Prop :=
  a.n ≤ b.n ∧ ∀ k, Node.Fewer (a.nodes k) (b.nodes k)

/-- The first map has ids which the second one does not have, but all of them are overlooked. -/
structure Blind (a b : Map α) : Prop where
  more : ∃ id, a.Has id ∧ ¬ b.Has id
  fewer : Fewer a b
  overlooked : ∀ id, a.Has id → ¬ b.Has id → Overlooked a b id

variable {val : ℕ → α} {a b : Map α} {S T : Finset ℕ}

theorem Is.has_iff (h : Is val a S) (id : ℕ) : a.Has id ↔ id ∈ S := by
  rw [Has, h.get_eq]
  by_cases hid : id ∈ S <;> simp [hid]

theorem Is.mem_paths (h : Is val a S) (k : Key) (ks : List Key) :
    ks ∈ (a.nodes k).paths ↔ Bijective.value k ks ∈ S := by
  rw [h.paths, mem_part]

theorem overlooked_value (k : Key) (ks : List Key) :
    Overlooked a b (Bijective.value k ks) ↔ Hidden ks (a.nodes k) (b.nodes k) := by
  rw [Overlooked, keys_value]

section

variable (ha : Is val a S) (hb : Is val b T)

include ha hb

/-- `imap__le_`; the numbers of ids are compared by the caller. -/
theorem leNodes_iff : a.leNodes b ↔
    (∀ k, Node.Fewer (a.nodes k) (b.nodes k)) ∧ ∀ id ∈ S, id ∈ T ∨ Overlooked a b id := by
  have hnode : a.leNodes b = true ↔ ∀ k,
      ((a.nodes k).data.isSome = true → (b.nodes k).data.isSome = true) ∧
        Node.Fewer (a.nodes k) (b.nodes k) ∧ Covered (a.nodes k) (b.nodes k) := by
    simp only [leNodes, all_eq_true, mem_finRange, true_imp_iff, Bool.and_eq_true,
      Bool.or_eq_true, Bool.not_eq_true', or_iff_imp]
    refine forall_congr' fun k => and_congr_right fun _ => ?_
    exact nodesLe_iff (ha.sound k).comparesLe (ha.sound k) (hb.sound k)
  rw [hnode]
  constructor
  · intro h
    refine ⟨fun k => (h k).2.1, fun id hid => ?_⟩
    obtain ⟨k, ks, rfl, -⟩ := Bijective.exists_value (b := 32) id
    rw [← ha.mem_paths] at hid
    rw [← hb.mem_paths, overlooked_value]
    cases ks with
    | nil => exact .inl ((nil_mem_paths _).mpr ((h k).1 ((nil_mem_paths _).mp hid)))
    | cons j js => exact (h k).2.2 j js hid
  · rintro ⟨hfewer, hids⟩ k
    have hpath : ∀ ks ∈ (a.nodes k).paths,
        ks ∈ (b.nodes k).paths ∨ Hidden ks (a.nodes k) (b.nodes k) := by
      intro ks hks
      have h := hids _ ((ha.mem_paths k ks).mp hks)
      rwa [← hb.mem_paths, overlooked_value] at h
    refine ⟨fun hdata => ?_, hfewer k, fun j js => hpath (j :: js)⟩
    exact (nil_mem_paths _).mp ((hpath [] ((nil_mem_paths _).mpr hdata)).resolve_right id)

/-- Nodes below an inclusion have no more entries below them. -/
theorem fewer_of_subset (h : S ⊆ T) : Fewer a b := by
  refine ⟨?_, fun k j p a' b' ha' hb' => ?_⟩
  · rw [ha.n, hb.n]
    exact card_le_card h
  · have ha'' := (ha.sound k).walk ha'
    have hb'' := (hb.sound k).walk hb'
    rw [ha''.sz, hb''.sz, Node.count, Node.count]
    refine Finset.sum_le_sum fun i _ => card_le_card fun q hq => ?_
    rw [← cons_mem_paths, mem_paths_walk ha', ha.mem_paths] at hq
    rw [← cons_mem_paths, mem_paths_walk hb', hb.mem_paths]
    exact h hq

/-- `imap_le` holds for an inclusion, and if the difference is overlooked. -/
theorem le_iff : a.le false b ↔ S ⊆ T ∨ Blind a b := by
  have hle : a.le false b = true ↔
      S = ∅ ∨ Fewer a b ∧ ∀ id ∈ S, id ∈ T ∨ Overlooked a b id := by
    simp only [le, Bool.false_or, Bool.or_eq_true, decide_eq_true_eq, Bool.and_eq_true,
      ha.n_eq_zero, leNodes_iff ha hb, Fewer, and_assoc]
  rw [hle]
  constructor
  · rintro (rfl | ⟨hfewer, hids⟩)
    · exact .inl (empty_subset T)
    · by_cases hsub : S ⊆ T
      · exact .inl hsub
      · obtain ⟨id, hid, hnot⟩ := not_subset.mp hsub
        have hwit := And.intro ((ha.has_iff id).mpr hid) fun h => hnot ((hb.has_iff id).mp h)
        refine .inr ⟨⟨id, hwit⟩, hfewer, ?_⟩
        intro id hS hT
        rw [ha.has_iff] at hS
        rw [hb.has_iff] at hT
        exact (hids id hS).resolve_left hT
  · rintro (hsub | hblind)
    · exact .inr ⟨fewer_of_subset ha hb hsub, fun id hid => .inl (hsub hid)⟩
    · refine .inr ⟨hblind.fewer, fun id hid => ?_⟩
      by_cases hT : id ∈ T
      · exact .inl hT
      · exact .inr (hblind.overlooked id ((ha.has_iff id).mpr hid)
          fun h => hT ((hb.has_iff id).mp h))

theorem blind_not_subset (h : Blind a b) : ¬ S ⊆ T := by
  obtain ⟨id, hS, hT⟩ := h.more
  intro hsub
  exact hT ((hb.has_iff id).mpr (hsub ((ha.has_iff id).mp hS)))

theorem lt_iff (h : ¬ Blind a b) : a.lt false b ↔ S ⊂ T := by
  have hle := le_iff ha hb
  simp only [h, or_false] at hle
  simp only [le, Bool.false_or, Bool.or_eq_true, decide_eq_true_eq, Bool.and_eq_true,
    ha.n_eq_zero] at hle
  have hlt : a.lt false b = true ↔ (S = ∅ ∧ T ≠ ∅) ∨ a.n < b.n ∧ a.leNodes b = true := by
    simp only [lt, Bool.not_false, Bool.true_and, Bool.or_eq_true, Bool.and_eq_true,
      decide_eq_true_eq, ha.n_eq_zero, Ne, hb.n_eq_zero]
  rw [hlt, ha.n, hb.n]
  rw [ha.n, hb.n] at hle
  constructor
  · rintro (⟨rfl, hT⟩ | ⟨hcard, hnodes⟩)
    · exact empty_ssubset.mpr (nonempty_iff_ne_empty.mpr hT)
    · have hsub := hle.mp (.inr ⟨hcard.le, hnodes⟩)
      refine Finset.ssubset_iff_subset_ne.mpr ⟨hsub, ?_⟩
      rintro rfl
      exact absurd hcard (Nat.lt_irrefl _)
  · intro hss
    have hcard := card_lt_card hss
    obtain rfl | ⟨-, hnodes⟩ := hle.mpr hss.subset
    · exact .inl ⟨rfl, nonempty_iff_ne_empty.mp (empty_ssubset.mp hss)⟩
    · exact .inr ⟨hcard, hnodes⟩

end

variable [DecidableEq α]

theorem leNodes_of_eqNodes (h : a.eqNodes b) : a.leNodes b := by
  simp only [eqNodes, all_eq_true, mem_finRange, true_imp_iff, Bool.and_eq_true,
    decide_eq_true_eq, Bool.or_eq_true, Bool.not_eq_true'] at h
  simp only [leNodes, all_eq_true, mem_finRange, true_imp_iff, Bool.and_eq_true,
    Bool.or_eq_true, Bool.not_eq_true', or_iff_imp]
  intro k
  obtain ⟨⟨hdata, hnodes⟩, heq⟩ := h k
  refine ⟨fun h => hdata ▸ h, ?_⟩
  obtain hn | heq := heq
  · exact .inl hn
  · cases hn : (a.nodes k).hasNodes with
    | false => exact .inl rfl
    | true => exact .inr ⟨hnodes ▸ hn, le_of_eq heq⟩

/-- Maps with the same ids are equal. -/
theorem eqNodes_of_eq (ha : Is val a S) (hb : Is val b S) : a.eqNodes b := by
  simp only [eqNodes, all_eq_true, mem_finRange, true_imp_iff, Bool.and_eq_true,
    decide_eq_true_eq, Bool.or_eq_true, Bool.not_eq_true']
  intro k
  have hpaths : (a.nodes k).paths = (b.nodes k).paths := by rw [ha.paths, hb.paths]
  have heq := (eqNd_iff (ha.sound k).compares (ha.sound k) (hb.sound k)).mpr hpaths
  simp only [eqNd, Bool.and_eq_true, decide_eq_true_eq, Bool.or_eq_true, Bool.not_eq_true'] at heq
  exact ⟨⟨heq.1.1.2, heq.1.2⟩, heq.2⟩

theorem eq_iff (ha : Is val a S) (hb : Is val b T) (h : ¬ Blind a b) : a.eq false b ↔ S = T := by
  have heq : a.eq false b = true ↔ a.n = b.n ∧ (a.n = 0 ∨ a.eqNodes b = true) := by
    simp only [eq, Bool.false_or, Bool.and_eq_true, decide_eq_true_eq, Bool.or_eq_true]
  rw [heq]
  constructor
  · rintro ⟨hn, hnodes⟩
    have hle : a.le false b = true := by
      simp only [le, Bool.false_or, Bool.or_eq_true, decide_eq_true_eq, Bool.and_eq_true]
      exact hnodes.imp id fun h => ⟨hn.le, leNodes_of_eqNodes h⟩
    have hsub := ((le_iff ha hb).mp hle).resolve_right h
    refine eq_of_subset_of_card_le hsub ?_
    rw [← ha.n, ← hb.n, hn]
  · rintro rfl
    exact ⟨by rw [ha.n, hb.n], .inr (eqNodes_of_eq ha hb)⟩

omit [DecidableEq α] in
theorem Is.unique (h : Is val a S) (h' : Is val a T) : S = T := by
  ext id
  rw [← h.has_iff, h'.has_iff]

/-- The three comparisons tell how the ids of two maps are related, unless the first map has ids
which the second one does not have and all of these are overlooked. -/
theorem comparisons_right_iff {same : Bool} (ha : Built val Small a S) (hb : Built val Small b T)
    (hsame : same = true → a = b) :
    ((a.eq same b = true ↔ ∀ id, a.Has id ↔ b.Has id) ∧
      (a.le same b = true ↔ ∀ id, a.Has id → b.Has id) ∧
      (a.lt same b = true ↔ (∀ id, a.Has id → b.Has id) ∧ ∃ id, b.Has id ∧ ¬ a.Has id)) ↔
    ¬ Blind a b := by
  have ha := ha.is
  have hb := hb.is
  have hEq : (∀ id, a.Has id ↔ b.Has id) ↔ S = T := by
    simp only [ha.has_iff, hb.has_iff, Finset.ext_iff]
  have hLe : (∀ id, a.Has id → b.Has id) ↔ S ⊆ T := by
    simp only [ha.has_iff, hb.has_iff, Finset.subset_iff]
  have hLt : ((∀ id, a.Has id → b.Has id) ∧ ∃ id, b.Has id ∧ ¬ a.Has id) ↔ S ⊂ T := by
    rw [hLe, Finset.ssubset_def, Finset.not_subset]
    simp only [ha.has_iff, hb.has_iff]
  rw [hLt, hEq, hLe]
  cases same with
  | true =>
    obtain rfl := hsame rfl
    obtain rfl := ha.unique hb
    have hnot : ¬ Blind a a := fun h => blind_not_subset ha ha h subset_rfl
    simp [eq, le, lt, hnot]
  | false =>
    constructor
    · rintro ⟨-, hright, -⟩ hblind
      exact blind_not_subset ha hb hblind (hright.mp ((le_iff ha hb).mpr (.inr hblind)))
    · intro h
      refine ⟨eq_iff ha hb h, ?_, lt_iff ha hb h⟩
      rw [le_iff ha hb]
      simp [h]

/-- The ids 32 and 64 are below one node, 33 and 65 below another one: 64 is overlooked in a full
node if the other map has only 32 there. -/
theorem comparisons_overlook :
    ∃ a b c d e : Map Unit, (∀ m ∈ [a, b, c, d, e], ∃ S, Built (fun _ => ()) Small m S) ∧
      (a.eq false b = true ∧ a.Has 64 ∧ ¬ b.Has 64) ∧
      (c.le false d = true ∧ c.Has 64 ∧ ¬ d.Has 64) ∧
      (c.lt false e = true ∧ c.Has 64 ∧ ¬ e.Has 64) := by
  refine ⟨ofIds (fun _ => ()) [33, 64, 32], ofIds (fun _ => ()) [65, 33, 32],
    ofIds (fun _ => ()) [64, 32], ofIds (fun _ => ()) [1, 32], ofIds (fun _ => ()) [2, 1, 32],
    ?_, ?_, ?_, ?_⟩
  · intro m hm
    simp only [List.mem_cons, List.not_mem_nil, or_false] at hm
    obtain rfl | rfl | rfl | rfl | rfl := hm <;> exact ⟨_, built_ofIds _ _ (by decide)⟩
  all_goals
    unfold Has
    decide +kernel

/-- A node with one child against a full node. -/
theorem comparisons_right_single :
    (ofIds (fun _ => ()) [32]).lt false (ofIds (fun _ => ()) [64, 32]) = true ∧
      (ofIds (fun _ => ()) [32]).eq false (ofIds (fun _ => ()) [64, 32]) = false := by
  have ha := built_ofIds (fun _ => ()) [32] (by decide)
  have hb := built_ofIds (fun _ => ()) [64, 32] (by decide)
  have hsub : ∀ id, (ofIds (fun _ => ()) [32]).Has id → (ofIds (fun _ => ()) [64, 32]).Has id := by
    intro id
    rw [ha.is.has_iff, hb.is.has_iff]
    simp
    tauto
  have hmore : (ofIds (fun _ => ()) [64, 32]).Has 64 ∧ ¬ (ofIds (fun _ => ()) [32]).Has 64 := by
    rw [ha.is.has_iff, hb.is.has_iff]
    decide
  obtain ⟨heq, -, hlt⟩ := (comparisons_right_iff ha hb (nofun : false = true → _)).mpr
    fun h => h.more.elim fun id hid => hid.2 (hsub id hid.1)
  refine ⟨hlt.mpr ⟨hsub, 64, hmore⟩, ?_⟩
  rw [← Bool.not_eq_true, heq]
  exact fun h => hmore.2 ((h 64).mpr hmore.1)

end Map

end ThingsDB.Imap
