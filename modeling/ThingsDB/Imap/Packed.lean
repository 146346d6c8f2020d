import ThingsDB.Imap.Finite

/-!
# Maps of any size

Nodes whose entries below may be as many as the 32 bits of `sz` can count, and one more: the count
then starts again at zero, and the next entry is added as if there were no nodes. Adding and
removing entries keeps to this for any number of entries.
-/

namespace ThingsDB.Imap

open Paths Node Finset

theorem wrap_natCast_mod (w n : ℕ) : wrap w n = n % 2 ^ w := by
  rw [wrap, ← Nat.cast_ofNat, ← Nat.cast_pow, ← Int.natCast_mod, Int.toNat_natCast]

variable {k : Key} {n : ℕ}

theorem wrap_mod_sub_one (h : 0 < n) (hn : n ≤ 2 ^ 32) :
    wrap 32 (((n % 2 ^ 32 : ℕ) : ℤ) - 1) = n - 1 := by
  rw [wrap]
  omega

namespace Node

variable {α : Type} {nd : Node α}

/-- The count is that of the entries below in 32 bits, and the array of nodes is there iff there is
an entry below. -/
inductive Packed : Node α → Prop
  | intro {nd : Node α} (sz : nd.sz = nd.count % 2 ^ 32) (le : nd.count ≤ 2 ^ 32)
    (nodes : nd.hasNodes = true ↔ 0 < nd.count)
    (kids : ∀ k c, nd.getNode k = some c → Packed c) : Packed nd

namespace Packed

theorem sz (h : Packed nd) : nd.sz = nd.count % 2 ^ 32 := by
  cases h with
  | intro sz le nodes kids => exact sz

theorem le (h : Packed nd) : nd.count ≤ 2 ^ 32 := by
  cases h with
  | intro sz le nodes kids => exact le

theorem nodes (h : Packed nd) : nd.hasNodes ↔ 0 < nd.count := by
  cases h with
  | intro sz le nodes kids => exact nodes

theorem kids (h : Packed nd) {k : Key} {c : Node α} (hc : nd.getNode k = some c) : Packed c := by
  cases h with
  | intro sz le nodes kids => exact kids k c hc

theorem null (d : Option α) : Packed (.null d 0) := by
  have hcount : (Node.null d 0).count = 0 := count_null rfl
  refine ⟨by rw [hcount, sz_null, Nat.zero_mod], by omega, ?_, ?_⟩
  · simp [hasNodes, hcount]
  · intro k c hc
    cases hc

theorem ensureNode (h : Packed nd) (k : Key) : Packed (nd.ensureNode k) := by
  rw [Node.ensureNode]
  cases hget : nd.getNode k with
  | none => exact null none
  | some c => exact h.kids hget

theorem withData (h : Packed nd) (d : Option α) : Packed (nd.withData d) := by
  refine ⟨by simpa using h.sz, by simpa using h.le, by simpa using h.nodes, ?_⟩
  intro k c hc
  rw [getNode_withData] at hc
  exact h.kids hc

theorem hasNodes_of_sz (h : Packed nd) (hlt : nd.count < 2 ^ 32) :
    nd.sz = 0 ↔ nd.hasNodes = false := by
  rw [← Bool.not_eq_true, h.nodes, Nat.pos_iff_ne_zero, not_not, h.sz, Nat.mod_eq_of_lt hlt]

theorem of_setNode {c c' : Node α} {s : ℕ} (hget : nd.getNode k = some c')
    (hkids : ∀ i c, nd.getNode i = some c → Packed c) (hc : Packed c)
    (hs : s = (nd.setNode k c s).count % 2 ^ 32) (hle : (nd.setNode k c s).count ≤ 2 ^ 32)
    (hpos : 0 < (nd.setNode k c s).count) : Packed (nd.setNode k c s) := by
  refine ⟨by rw [sz_setNode]; exact hs, hle, ⟨fun _ => hpos, fun _ => ?_⟩, fun i c'' hi => ?_⟩
  · cases nd with
    | null d s => cases hget
    | single | full => rfl
  · rw [getNode_setNode hget] at hi
    by_cases hik : i = k
    · rw [if_pos hik] at hi
      cases hi
      exact hc
    · rw [if_neg hik] at hi
      exact hkids i c'' hi

theorem add_nil (h : Packed nd) (a : α) :
    Packed (nd.add a []).1 ∧ (nd.add a []).1.paths = insert [] nd.paths ∧
      (nd.add a []).2 = decide ([] ∉ nd.paths) := by
  rw [Node.add]
  cases hd : nd.data.isSome with
  | true =>
    have hmem : [] ∈ nd.paths := (nil_mem_paths nd).mpr hd
    simp [h, hmem]
  | false =>
    have hmem : [] ∉ nd.paths := by simp [hd]
    exact ⟨h.withData _, paths_withData_some nd a, by simp [hmem]⟩

theorem add_of_lt (h : Packed nd) (hlt : nd.count < 2 ^ 32) (a : α) (p : List Key) :
    Packed (nd.add a p).1 ∧ (nd.add a p).1.paths = insert p nd.paths ∧
      (nd.add a p).2 = decide (p ∉ nd.paths) := by
  induction p generalizing nd with
  | nil => exact h.add_nil a
  | cons k p ih =>
    have hnodes := h.hasNodes_of_sz hlt
    have hget := getNode_room hnodes k
    have hcount := count_room hnodes k
    have hkid : (nd.ensureNode k).paths.card ≤ nd.count := hcount ▸ card_kid_le hget
    have hcard := card_paths (nd.ensureNode k)
    obtain ⟨hr, hpaths, hnew⟩ := ih (h.ensureNode k) (by omega)
    have hone := card_insert_eq hpaths hnew
    rw [Node.add, ensureNode_room hnodes, h.sz, Nat.mod_eq_of_lt hlt]
    generalize (nd.ensureNode k).add a p = r at *
    have hall := paths_room_setNode hnodes hpaths
    have hsum : ∀ s, ((nd.room k).setNode k r.1 s).count = nd.count + (one r.2).toNat := by
      intro s
      have := count_setNode (c := r.1) (s := s) hget
      omega
    have hle : (one r.2).toNat ≤ 1 := by
      cases r.2 <;> decide
    simp only [add_one_eq, wrap_natCast_mod]
    refine ⟨of_setNode hget ?_ hr (by rw [hsum]) (by rw [hsum]; omega) ?_, hall _, ?_⟩
    · intro i c hc
      rw [← ensureNode_eq_of_some hc, ensureNode_room hnodes]
      exact h.ensureNode i
    · apply count_pos (k := k) (p := p)
      rw [hall]
      exact Finset.mem_insert_self _ _
    · simp only [hnew, cons_mem_paths, Node.under]

/-- If the count has started again, then what is below the node is given up for the new entry. -/
theorem add_cons_of_sz (hsz : nd.sz = 0) (a : α) (p : List Key) :
    nd.add a (k :: p) = (Node.null nd.data 0).add a (k :: p) := by
  simp [Node.add, room, hsz]

theorem add (h : Packed nd) (a : α) (p : List Key) :
    Packed (nd.add a p).1 ∧
      (nd.add a p).1.paths.card ≤ nd.paths.card + (one (nd.add a p).2).toNat := by
  by_cases hlt : nd.count < 2 ^ 32
  · obtain ⟨hp, hpaths, hnew⟩ := h.add_of_lt hlt a p
    exact ⟨hp, (card_insert_eq hpaths hnew).le⟩
  · cases p with
    | nil =>
      obtain ⟨hp, hpaths, hnew⟩ := h.add_nil a
      exact ⟨hp, (card_insert_eq hpaths hnew).le⟩
    | cons k p =>
      have hbrim : nd.count = 2 ^ 32 := Nat.le_antisymm h.le (Nat.le_of_not_lt hlt)
      have hsz : nd.sz = 0 := by rw [h.sz, hbrim, Nat.mod_self]
      have hzero : (Node.null nd.data 0).count = 0 := count_null rfl
      obtain ⟨hp, hpaths, hnew⟩ := (null nd.data).add_of_lt (by omega) a (k :: p)
      rw [add_cons_of_sz hsz]
      have hless := card_paths (Node.null nd.data 0)
      have hmore := card_paths nd
      have hle := card_insert_eq hpaths hnew
      rw [data_null] at hless
      exact ⟨hp, by omega⟩

theorem pop (h : Packed nd) (p : List Key) :
    Packed (nd.pop p).1 ∧ (nd.pop p).1.paths = nd.paths.erase p := by
  induction p generalizing nd with
  | nil => exact ⟨h.withData none, paths_withData_none nd⟩
  | cons k p ih =>
    cases hfound : nd.get (k :: p) with
    | none =>
      rw [pop_of_none hfound, erase_of_get hfound]
      exact ⟨h, rfl⟩
    | some a =>
      obtain ⟨c, hget, hdata⟩ := exists_kid_of_get hfound
      obtain ⟨hc, hpaths⟩ := ih (h.kids hget)
      have hless := card_of_get hdata hpaths
      have hpos : 0 < nd.count := count_pos ((mem_paths nd (k :: p)).mpr (by simp [hfound]))
      have hcount : ∀ s, (nd.setNode k (c.pop p).1 s).count = nd.count - 1 := by
        intro s
        have := count_setNode (c := (c.pop p).1) (s := s) hget
        omega
      have hle := h.le
      rw [pop_of_some hget hdata, h.sz, wrap_mod_sub_one hpos hle]
      refine ⟨?_, paths_setNode_erase hget hpaths (hcount _).symm⟩
      rw [freeEmpty]
      by_cases hlast : nd.count - 1 = 0
      · rw [if_pos (by rw [sz_setNode, hlast])]
        exact null _
      · rw [if_neg (by rwa [sz_setNode])]
        refine of_setNode hget (fun i c hc => h.kids hc) hc ?_ ?_ ?_
        · rw [hcount, Nat.mod_eq_of_lt (by omega)]
        · rw [hcount]
          omega
        · rw [hcount]
          omega

end Packed

end Node

namespace Map

variable {α : Type} {m : Map α}

/-- The maps which are made with `imap_add` and `imap_pop`. An entry which is counted keeps memory
of its own, even if it is given up, so that `n` never gets near to the end of its 64 bits. -/
inductive Reached : Map α → Prop
  | create : Reached create
  | add {m : Map α} (h : Reached m) (id : ℕ) (a : α) (hn : m.n + 1 < 2 ^ 64) :
    Reached (m.add id a).1
  | pop {m : Map α} (h : Reached m) (id : ℕ) : Reached (m.pop id).1

/-- All nodes are packed, and the entries which can be found are among those counted. -/
structure Packed (m : Map α) : Prop where
  nodes : ∀ k, (m.nodes k).Packed
  le : ∑ k, (m.nodes k).paths.card ≤ m.n
  lt : m.n < 2 ^ 64

theorem sum_update (m : Map α) (k : Key) (nd : Node α) :
    ∑ i, (Function.update m.nodes k nd i).paths.card + (m.nodes k).paths.card =
      ∑ i, (m.nodes i).paths.card + nd.paths.card := by
  have hnew := add_sum_erase univ
    (fun i => (Function.update m.nodes k nd i).paths.card) (mem_univ k)
  have hold := add_sum_erase univ (fun i => (m.nodes i).paths.card)
    (mem_univ k)
  have hrest : ∑ i ∈ univ.erase k, (Function.update m.nodes k nd i).paths.card =
      ∑ i ∈ univ.erase k, (m.nodes i).paths.card := by
    refine sum_congr rfl fun i hi => ?_
    rw [Function.update_of_ne (ne_of_mem_erase hi)]
  simp only [Function.update_self] at hnew
  omega

theorem Packed.update (h : Packed m) {nd : Node α} (hnd : nd.Packed)
    (hle : nd.paths.card + m.n ≤ (m.nodes k).paths.card + n) (hn : n < 2 ^ 64) :
    Packed ⟨n, Function.update m.nodes k nd⟩ := by
  refine ⟨fun i => ?_, ?_, hn⟩
  · by_cases hi : i = k
    · subst hi
      simpa using hnd
    · simpa [hi] using h.nodes i
  · have hsum := sum_update m k nd
    have hle' := h.le
    show ∑ i, (Function.update m.nodes k nd i).paths.card ≤ n
    omega

theorem Packed.add (h : Packed m) (id : ℕ) (a : α) (hn : m.n + 1 < 2 ^ 64) :
    Packed (m.add id a).1 := by
  obtain ⟨k, ks, -, hkeys⟩ := Bijective.exists_value (b := 32) id
  rw [Map.add, keys, hkeys]
  obtain ⟨hnd, hcard⟩ := (h.nodes k).add a ks
  have hle : (one ((m.nodes k).add a ks).2).toNat ≤ 1 := by
    cases ((m.nodes k).add a ks).2 <;> decide
  have hwrap : wrap 64 (m.n + one ((m.nodes k).add a ks).2) =
      m.n + (one ((m.nodes k).add a ks).2).toNat := by
    rw [add_one_eq, wrap_natCast (by omega)]
  simp only [hwrap]
  exact h.update hnd (by omega) (by omega)

theorem Packed.pop (h : Packed m) (id : ℕ) : Packed (m.pop id).1 := by
  obtain ⟨k, ks, -, hkeys⟩ := Bijective.exists_value (b := 32) id
  rw [Map.pop, keys, hkeys]
  obtain ⟨hnd, hpaths⟩ := (h.nodes k).pop ks
  have hlt := h.lt
  have hcard : (m.nodes k).paths.card ≤ m.n := by
    refine Nat.le_trans ?_ h.le
    exact Finset.single_le_sum (f := fun k => (m.nodes k).paths.card) (fun _ _ => Nat.zero_le _)
      (mem_univ k)
  cases hsome : ((m.nodes k).pop ks).2.isSome with
  | false =>
    have hwrap : wrap 64 (m.n - one false) = m.n := by
      have hz : (m.n : ℤ) - one false = (m.n : ℕ) := by simp [one]
      rw [hz, wrap_natCast hlt]
    simp only [hwrap, hsome]
    refine h.update hnd ?_ hlt
    rw [hpaths]
    have := card_erase_le (s := (m.nodes k).paths) (a := ks)
    omega
  | true =>
    have hmem : ks ∈ (m.nodes k).paths := by
      rw [mem_paths, ← pop_snd, hsome]
    have hless := card_erase_add_one hmem
    have hwrap : wrap 64 (m.n - one true) = m.n - 1 := by
      have hz : (m.n : ℤ) - one true = (m.n - 1 : ℕ) := by
        simp only [one, if_true]
        omega
      rw [hz, wrap_natCast (by omega)]
    simp only [hwrap, hsome]
    refine h.update hnd ?_ (by omega)
    rw [hpaths]
    omega

theorem Reached.packed (h : Reached m) : Packed m := by
  induction h with
  | create =>
    refine ⟨fun k => Node.Packed.null none, ?_, by simp [Map.create]⟩
    simp [Map.create, Node.empty, Node.paths]
  | add h id a hn ih => exact ih.add id a hn
  | pop h id ih => exact ih.pop id

end Map

end ThingsDB.Imap
