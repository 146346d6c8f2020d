import ThingsDB.Imap.Merge

/-!
# One entry

Adding, finding and removing a single entry of a node.
-/

namespace ThingsDB.Imap.Node

open Paths Finset

variable {α : Type} {val : List Key → α} {nd : Node α}

theorem paths_withData_some (nd : Node α) (a : α) :
    (nd.withData (some a)).paths = insert [] nd.paths := by
  apply ext_tails
  · simp
  · intro k
    ext p
    simp [mem_tails, cons_mem_paths]

theorem paths_withData_none (nd : Node α) : (nd.withData none).paths = nd.paths.erase [] := by
  apply ext_tails
  · simp
  · intro k
    ext p
    simp [mem_tails, cons_mem_paths]

variable {c c' : Node α} {P : Finset (List Key)} {p : List Key}

theorem card_kid_le {k : Key} (h : nd.getNode k = some c) : c.paths.card ≤ nd.count := by
  rw [← under_of_some h, count]
  exact Finset.single_le_sum (f := fun i => (nd.under i).card) (fun _ _ => Nat.zero_le _)
    (mem_univ k)

section SetNode

variable {k : Key} {c : Node α} {s : ℕ}

@[simp]
theorem data_setNode : (nd.setNode k c s).data = nd.data := by
  cases nd <;> rfl

@[simp]
theorem sz_setNode : (nd.setNode k c s).sz = s := by
  cases nd <;> rfl

theorem getNode_setNode (h : nd.getNode k = some c') (i : Key) :
    (nd.setNode k c s).getNode i = if i = k then some c else nd.getNode i := by
  cases nd with
  | null d s => cases h
  | single d s key nd =>
    obtain rfl := key_of_getNode h
    by_cases hi : i = key
    · simp [setNode, getNode, hi]
    · simp [setNode, getNode, hi, Ne.symm hi]
  | full d s nds =>
    by_cases hi : i = k
    · simp [setNode, getNode, hi]
    · simp [setNode, getNode, hi]

theorem under_setNode (h : nd.getNode k = some c') (i : Key) :
    (nd.setNode k c s).under i = if i = k then c.paths else nd.under i := by
  rw [Node.under, ensureNode, getNode_setNode h]
  by_cases hi : i = k
  · rw [if_pos hi, if_pos hi, Option.getD_some]
  · rw [if_neg hi, if_neg hi, Node.under, ensureNode]

theorem count_setNode (h : nd.getNode k = some c') :
    (nd.setNode k c s).count + c'.paths.card = nd.count + c.paths.card := by
  have hnew := add_sum_erase univ
    (fun i => ((nd.setNode k c s).under i).card) (mem_univ k)
  have hold := add_sum_erase univ (fun i => (nd.under i).card) (mem_univ k)
  have hrest : ∑ i ∈ univ.erase k, ((nd.setNode k c s).under i).card =
      ∑ i ∈ univ.erase k, (nd.under i).card := by
    refine sum_congr rfl fun i hi => ?_
    rw [under_setNode h, if_neg (ne_of_mem_erase hi)]
  simp only [under_setNode h, if_true, under_of_some h] at hnew hold hrest
  simp only [count, under_setNode h]
  omega

theorem Summed.setNode (hnd : Summed val nd) (h : nd.getNode k = some c')
    (hc : Sound (fun p => val (k :: p)) c) (hs : s + c'.paths.card = nd.sz + c.paths.card) :
    Summed val (nd.setNode k c s) := by
  have hcount := count_setNode (c := c) (s := s) h
  refine ⟨?_, fun i c'' hget => ?_⟩
  · rw [sz_setNode]
    rw [hnd.sz] at hs
    omega
  · rw [getNode_setNode h] at hget
    by_cases hi : i = k
    · subst hi
      rw [if_pos rfl] at hget
      cases hget
      exact hc
    · rw [if_neg hi] at hget
      exact hnd.kids i c'' hget

theorem paths_setNode (h : nd.getNode k = some c')
    (hnil : [] ∈ P ↔ [] ∈ nd.paths) (hself : tails P k = c.paths)
    (hrest : ∀ i, i ≠ k → tails P i = nd.under i) : (nd.setNode k c s).paths = P := by
  apply ext_tails
  · rw [hnil]
    simp
  · intro i
    rw [tails_paths, under_setNode h]
    by_cases hi : i = k
    · rw [if_pos hi, hi, hself]
    · rw [if_neg hi, hrest i hi]

end SetNode

section Add

theorem hasNodes_of_sz (h : Sound val nd) : nd.sz = 0 ↔ nd.hasNodes = false := by
  rw [← Bool.not_eq_true, h.nodes, Nat.pos_iff_ne_zero, not_not]

theorem getNode_room (h : nd.sz = 0 ↔ nd.hasNodes = false) (k : Key) :
    (nd.room k).getNode k = some (nd.ensureNode k) := by
  cases nd with
  | null d s =>
    have hsz : (Node.null d s).sz = 0 := h.mpr rfl
    rw [room, if_pos hsz]
    simp [getNode, ensureNode]
  | single d s key c =>
    have hsz : (Node.single d s key c).sz ≠ 0 := by simp [h, hasNodes]
    rw [room, if_neg hsz, growFor]
    by_cases hkey : key = k
    · simp [getNode, ensureNode, hkey]
    · simp [getNode, ensureNode, hkey, nodeGrow, Ne.symm hkey]
  | full d s nds =>
    have hsz : (Node.full d s nds).sz ≠ 0 := by simp [h, hasNodes]
    rw [room, if_neg hsz]
    rfl

/-- The node with room for a child holds the same. -/
theorem ensureNode_room (h : nd.sz = 0 ↔ nd.hasNodes = false) (k i : Key) :
    (nd.room k).ensureNode i = nd.ensureNode i := by
  rw [room]
  by_cases hsz : nd.sz = 0
  · rw [if_pos hsz]
    have hnone : nd.ensureNode i = empty := by
      rw [ensureNode, getNode_null (h.mp hsz), Option.getD_none]
    by_cases hi : k = i
    · rw [hnone, hi, ensureNode_single]
    · rw [hnone, ensureNode_single_ne hi]
  · rw [if_neg hsz]
    exact ensureNode_growAs (.single none 0 k empty) nd i

theorem data_room (k : Key) : (nd.room k).data = nd.data := by
  rw [room]
  split
  · rfl
  · exact data_growAs (.single none 0 k empty) nd

theorem sz_room (k : Key) : (nd.room k).sz = nd.sz := by
  rw [room]
  by_cases hsz : nd.sz = 0
  · rw [if_pos hsz, hsz]
    rfl
  · rw [if_neg hsz]
    exact sz_growAs (.single none 0 k empty) nd

section

variable (h : nd.sz = 0 ↔ nd.hasNodes = false)

include h

theorem under_room (k i : Key) : (nd.room k).under i = nd.under i := by
  rw [Node.under, ensureNode_room h, Node.under]

theorem count_room (k : Key) : (nd.room k).count = nd.count := by
  rw [count, count, sum_congr rfl fun i _ => congrArg _ (under_room h k i)]

/-- A child node which got one path more gives the node one path more. -/
theorem paths_room_setNode {k : Key} (hc : c.paths = insert p (nd.ensureNode k).paths) (s : ℕ) :
    ((nd.room k).setNode k c s).paths = insert (k :: p) nd.paths := by
  refine paths_setNode (getNode_room h k) ?_ ?_ ?_
  · simp [data_room]
  · rw [hc]
    ext q
    simp [mem_tails, cons_mem_paths, Node.under]
  · intro i hi
    ext q
    simp [mem_tails, cons_mem_paths, under_room h, hi]

end

theorem Sound.room (h : Sound val nd) (k : Key) : Summed val (nd.room k) := by
  refine ⟨?_, fun i c hget => ?_⟩
  · rw [sz_room, h.sz, count_room (hasNodes_of_sz h)]
  · rw [← ensureNode_eq_of_some hget, ensureNode_room (hasNodes_of_sz h)]
    exact h.ensureNode i

theorem Sound.add_snd (h : Sound val nd) (a : α) (p : List Key) :
    (nd.add a p).2 = decide (p ∉ nd.paths) := by
  induction p generalizing nd val with
  | nil =>
    rw [Node.add]
    cases hd : nd.data.isSome <;> simp [hd]
  | cons k p ih =>
    rw [Node.add, ensureNode_room (hasNodes_of_sz h)]
    simp only [ih (h.ensureNode k), cons_mem_paths, Node.under]

theorem card_insert_kid (k : Key) (p : List Key) :
    (insert p (tails P k)).card ≤ (insert (k :: p) P).card := by
  have htails : tails (insert (k :: p) P) k = insert p (tails P k) := by
    ext q
    simp [mem_tails]
  have hle : (tails (insert (k :: p) P) k).card ≤ ∑ i, (tails (insert (k :: p) P) i).card :=
    Finset.single_le_sum (f := fun i => (tails (insert (k :: p) P) i).card)
      (fun _ _ => Nat.zero_le _) (mem_univ k)
  have hcard := Paths.card_eq (insert (k :: p) P)
  rw [htails] at hle
  omega

theorem card_insert_eq {Q : Finset (List Key)} {b : Bool} (hQ : Q = insert p P)
    (hb : b = decide (p ∉ P)) : Q.card = P.card + (one b).toNat := by
  rw [hQ, hb]
  by_cases hin : p ∈ P
  · simp [hin, one]
  · simp [hin, one]

theorem add_one_eq (n : ℕ) (b : Bool) : (n : ℤ) + one b = ((n + (one b).toNat : ℕ) : ℤ) := by
  cases b <;> rfl

theorem Sound.add (h : Sound val nd) (hp : (insert p nd.paths).card < 2 ^ 32) :
    Sound val (nd.add (val p) p).1 ∧ (nd.add (val p) p).1.paths = insert p nd.paths := by
  induction p generalizing nd val with
  | nil =>
    rw [Node.add]
    cases hd : nd.data.isSome with
    | true =>
      have hmem : [] ∈ nd.paths := (nil_mem_paths nd).mpr hd
      simp [h, hmem]
    | false => exact ⟨h.withData (by simp), paths_withData_some nd _⟩
  | cons k p ih =>
    have hnodes := hasNodes_of_sz h
    have hget := getNode_room hnodes k
    have hkid := h.ensureNode k
    have hfits : (insert p (nd.ensureNode k).paths).card < 2 ^ 32 := by
      refine Nat.lt_of_le_of_lt ?_ hp
      simpa only [tails_paths, Node.under] using card_insert_kid (P := nd.paths) k p
    obtain ⟨hs, hpaths⟩ := ih hkid hfits
    have hone := card_insert_eq hpaths (hkid.add_snd (val (k :: p)) p)
    rw [Node.add, ensureNode_room hnodes]
    generalize (nd.ensureNode k).add (val (k :: p)) p = r at *
    -- the paths do not depend on the count, which is right by the number of paths
    have hall := paths_room_setNode hnodes hpaths
    have hbound : nd.sz + (one r.2).toNat < 2 ^ 32 := by
      have hcount := count_setNode (c := r.1) (s := 0) hget
      have hcard := card_paths ((nd.room k).setNode k r.1 0)
      rw [hall] at hcard
      rw [← (h.room k).sz, sz_room] at hcount
      omega
    have hsummed : Summed val ((nd.room k).setNode k r.1 (nd.sz + (one r.2).toNat)) :=
      (h.room k).setNode hget hs (by rw [sz_room]; omega)
    rw [add_one_eq, wrap_natCast hbound]
    refine ⟨hsummed.sound (by simpa [data_room] using h.data) fun _ => ?_, hall _⟩
    apply count_pos (k := k) (p := p)
    rw [hall]
    exact Finset.mem_insert_self _ _

end Add

section Pop

variable {k : Key} {p : List Key} {c c' : Node α} {a : α}

theorem pop_snd (nd : Node α) (p : List Key) : (nd.pop p).2 = nd.get p := by
  induction p generalizing nd with
  | nil => rfl
  | cons k p ih =>
    rw [pop, get]
    cases nd.getNode k with
    | none => rfl
    | some c =>
      have hc := ih c
      rcases hpop : c.pop p with ⟨c', _ | a⟩ <;> simpa [hpop] using hc

theorem pop_of_none (h : nd.get p = none) : (nd.pop p).1 = nd := by
  cases p with
  | nil => exact withData_eq_self h
  | cons k p =>
    rw [get] at h
    rw [pop]
    cases hget : nd.getNode k with
    | none => rfl
    | some c =>
      have hc : (c.pop p).2 = none := (pop_snd c p).trans (by simpa [hget] using h)
      rcases hpop : c.pop p with ⟨c', _ | a⟩
      · simp [hpop]
      · simp [hpop] at hc

theorem pop_of_some (hget : nd.getNode k = some c) (h : c.get p = some a) : (nd.pop (k :: p)).1 =
    (nd.setNode k (c.pop p).1 (wrap 32 (nd.sz - 1))).freeEmpty := by
  rw [← pop_snd] at h
  rcases hpop : c.pop p with ⟨c', _ | a⟩
  · simp [hpop] at h
  · simp [pop, hget, hpop]

theorem exists_kid_of_get (h : nd.get (k :: p) = some a) :
    ∃ c, nd.getNode k = some c ∧ c.get p = some a := by
  rw [get] at h
  cases hget : nd.getNode k with
  | none => simp [hget] at h
  | some c => exact ⟨c, rfl, by simpa [hget] using h⟩

theorem erase_of_get (h : nd.get p = none) : nd.paths.erase p = nd.paths :=
  erase_eq_of_notMem (by simp [mem_paths, h])

theorem card_of_get (h : nd.get p = some a) (hP : c'.paths = nd.paths.erase p) :
    c'.paths.card + 1 = nd.paths.card := by
  rw [hP]
  exact card_erase_add_one ((mem_paths nd p).mpr (by simp [h]))

theorem paths_setNode_erase {s : ℕ} (hget : nd.getNode k = some c)
    (hpaths : c'.paths = c.paths.erase p) (hsz : s = (nd.setNode k c' s).count) :
    (nd.setNode k c' s).freeEmpty.paths = nd.paths.erase (k :: p) := by
  apply ext_tails
  · simp [data_freeEmpty]
  · intro i
    rw [tails_paths, under_freeEmpty (by rwa [sz_setNode]), under_setNode hget]
    ext q
    by_cases hi : i = k
    · subst hi
      simp [hpaths, cons_mem_paths, under_of_some hget]
    · simp [hi, cons_mem_paths]

theorem Sound.pop (h : Sound val nd) (hp : nd.paths.card < 2 ^ 32) :
    Sound val (nd.pop p).1 ∧ (nd.pop p).1.paths = nd.paths.erase p := by
  induction p generalizing nd val with
  | nil => exact ⟨h.withData (by simp), paths_withData_none nd⟩
  | cons k p ih =>
    cases hfound : nd.get (k :: p) with
    | none =>
      rw [pop_of_none hfound, erase_of_get hfound]
      exact ⟨h, rfl⟩
    | some a =>
      obtain ⟨c, hget, hdata⟩ := exists_kid_of_get hfound
      have hle := card_kid_le hget
      have hcard := card_paths nd
      obtain ⟨hs, hpaths⟩ := ih (h.kids hget) (by omega)
      have hless := card_of_get hdata hpaths
      have hpos : 0 < nd.sz := h.sz ▸ count_pos ((mem_paths nd (k :: p)).mpr (by simp [hfound]))
      have hz : (nd.sz : ℤ) - 1 = ((nd.sz - 1 : ℕ) : ℤ) := by omega
      have hbound : nd.sz - 1 < 2 ^ 32 := by
        rw [h.sz]
        omega
      have hsummed : Summed val (nd.setNode k (c.pop p).1 (nd.sz - 1)) :=
        h.summed.setNode hget hs (by omega)
      rw [pop_of_some hget hdata, hz, wrap_natCast hbound]
      exact ⟨hsummed.freeEmpty (by simpa using h.data),
        paths_setNode_erase hget hpaths (by simpa using hsummed.sz)⟩

end Pop

end ThingsDB.Imap.Node
