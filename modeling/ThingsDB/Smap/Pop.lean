import ThingsDB.Smap.Add

/-!
# Removing from a tree

A node without data and with one child node is merged with it. The size of a node with all of the
256 child nodes is zero in eight bits: such a node is taken for a leaf.
-/

namespace ThingsDB.Smap.Node

open List

variable {α : Type}

structure Popped (nd : Node α) (key : List Byte) (r : Node α × Option α) : Prop where
  ok : Ok r.1
  found : r.2 = nd.find key
  find : ∀ key', r.1.find key' = if key' = key then none else nd.find key'

/-- There are keys which go on from this one with each of the bytes. -/
def Full (find : List Byte → Option α) (key : List Byte) : Prop :=
  ∀ b : Byte, ∃ s, (find (key ++ b :: s)).isSome = true

/-- The parts fit in 32 bits also after they are merged. -/
def Short (find : List Byte → Option α) : Prop := ∀ key a, find key = some a → key.length < 2 ^ 32

variable {k : Byte}

section Merge

variable {part : List Byte} {d : Option α} {size off sz : ℕ} {alloc : Bool}
  {nds : ℕ → Node α}

theorem kid_ofNat (hwin : off + sz ≤ 8) {i : ℕ} (hi : i < sz * 32) :
    (Node.node part d size off sz true nds).kid (Fin.ofNat 256 (i + off * 32)) =
      nds i := by
  have hval : ((Fin.ofNat 256 (i + off * 32) : Byte) : ℕ) = i + off * 32 := by
    simp only [Fin.ofNat]
    omega
  have hcov : covers off sz true (Fin.ofNat 256 (i + off * 32)) = true :=
    covers_iff.mpr ⟨rfl, by omega, by omega⟩
  rw [kid_node_of_covers hcov, hval, Nat.add_sub_cancel]

theorem index_of_covers (hcov : covers off sz alloc k) :
    (k : ℕ) - off * 32 < sz * 32 ∧ Fin.ofNat 256 (k - off * 32 + off * 32) = k := by
  obtain ⟨-, hlow, hhigh⟩ := covers_iff.mp hcov
  refine ⟨by omega, Fin.ext ?_⟩
  simp only [Fin.ofNat]
  omega

theorem mergeNode_eq (hwin : alloc → off + sz ≤ 8)
    (hbytes : (Node.node part d size off sz alloc nds).kidBytes = {k}) :
    ∃ part' d' size' off' sz' alloc' nds',
      (Node.node part d size off sz alloc nds).kid k =
        .node part' d' size' off' sz' alloc' nds' ∧
      (Node.node part d size off sz alloc nds).mergeNode =
        .node (inBits (part ++ k :: part')) d' size' off' sz' alloc' nds' := by
  have hmem : ∀ j, (Node.node part d size off sz alloc nds).kid j ≠ .null ↔ j = k := by
    intro j
    rw [← mem_kidBytes, hbytes, Finset.mem_singleton]
  have hkid := (hmem k).mpr rfl
  have hcov : covers off sz alloc k = true := by
    by_contra hnot
    rw [kid, if_neg hnot] at hkid
    exact hkid rfl
  obtain ⟨halloc, -⟩ := covers_iff.mp hcov
  subst halloc
  obtain ⟨hidx, hbyte⟩ := index_of_covers hcov
  have hself : (Node.node part d size off sz true nds).kid k = nds (k - off * 32) :=
    kid_node_of_covers hcov
  have hfind : (List.range (sz * 32)).find? (fun i => !(nds i).isNull) =
      some ((k : ℕ) - off * 32) := by
    rw [find?_range_eq_some]
    refine ⟨?_, mem_range.mpr hidx, fun i hi => ?_⟩
    · rw [← hself, Bool.not_eq_true', ← Bool.not_eq_true, isNull_iff]
      exact hkid
    · rw [Bool.not_not, isNull_iff]
      by_contra hne
      have hlt : i < sz * 32 := by omega
      have heq : (Node.node part d size off sz true nds).kid
          (Fin.ofNat 256 (i + off * 32)) = nds i := kid_ofNat (hwin rfl) hlt
      rw [← heq, ← Ne, hmem] at hne
      have hval := congrArg Fin.val hne
      simp only [Fin.ofNat] at hval
      have hk := hwin rfl
      omega
  rw [hself] at hkid ⊢
  cases hnode : nds (k - off * 32) with
  | null => exact absurd hnode hkid
  | node part' d' size' off' sz' alloc' nds' =>
    refine ⟨part', d', size', off', sz', alloc', nds', rfl, ?_⟩
    simp only [mergeNode, hfind, hnode, hbyte]

theorem prefix_of_find {key : List Byte} {a : α}
    (h : (Node.node part d size off sz alloc nds).find key = some a) : part <+: key := by
  by_contra hnot
  rw [find_of_not_start hnot] at h
  cases h

/-- A node without data and its only child node are one node. -/
theorem merged_ok (hwin : alloc → off + sz ≤ 8)
    (hkids : ∀ k, Ok ((Node.node part none size off sz alloc nds).kid k))
    (hcard : (Node.node part none size off sz alloc nds).kidBytes.card = 1)
    (hshort : Short (Node.node part none size off sz alloc nds).find) :
    Ok (Node.node part none size off sz alloc nds).mergeNode ∧
      ∀ key, (Node.node part none size off sz alloc nds).mergeNode.find key =
        (Node.node part none size off sz alloc nds).find key := by
  obtain ⟨k, hbytes⟩ := Finset.card_eq_one.mp hcard
  obtain ⟨part', d', size', off', sz', alloc', nds', hkid, hmerge⟩ := mergeNode_eq hwin hbytes
  have hchild := hkids k
  rw [hkid] at hchild
  have hlen : (part ++ k :: part').length < 2 ^ 32 := by
    obtain ⟨key, a, hkey⟩ := hchild.exists_find nofun
    have hlt := hshort (part ++ k :: key) a (by rw [find_append, hkid, hkey])
    have hle := (prefix_of_find hkey).length_le
    rw [length_append, length_cons] at hlt ⊢
    omega
  rw [hmerge, inBits_of_lt hlen]
  refine ⟨.node hchild.size_eq hchild.window hchild.branches hchild.kids, fun key => ?_⟩
  obtain rfl | ⟨j, js, rfl⟩ | hpre := key_cases part key
  · rw [find_self, find_cut_ne (by simp)]
  · rw [find_append]
    by_cases hj : j = k
    · rw [hj, hkid]
      exact (find_cut js).symm
    · have hnull : (Node.node part none size off sz alloc nds).kid j = .null := by
        by_contra hne
        rw [← Ne, ← mem_kidBytes, hbytes, Finset.mem_singleton] at hne
        exact hj hne
      rw [hnull, find_null, find_cut_ne]
      intro js' heq
      exact hj (List.cons.inj (append_cancel_left heq)).1
  · rw [find_of_not_start hpre, find_cut_ne fun js => ne_of_not_start hpre _]

end Merge

section Steps

variable {part : List Byte} {d : Option α} {size off sz : ℕ} {alloc : Bool}
  {nds : ℕ → Node α}

/-- Not all bytes have a child node if not all of them go on from the key of the node. -/
theorem card_lt_of_not_full (h : Ok (.node part d size off sz alloc nds))
    (hfull : ¬ Full (Node.node part d size off sz alloc nds).find part) :
    (Node.node part d size off sz alloc nds).kidBytes.card < 256 := by
  refine Nat.lt_of_le_of_ne (card_kidBytes_le _) fun hcard => hfull fun b => ?_
  have hall : (Node.node part d size off sz alloc nds).kidBytes = Finset.univ := by
    rw [← Finset.card_eq_iff_eq_univ, hcard, Fintype.card_fin]
  have hb := mem_kidBytes.mp (hall ▸ Finset.mem_univ b)
  obtain ⟨s, a, hfind⟩ := (h.kids b).exists_find hb
  exact ⟨s, by rw [find_append, hfind]; rfl⟩

theorem find_of_ite {p : Prop} [Decidable p] {x : Option α} {a : α}
    (h : (if p then none else x) = some a) : x = some a := by
  split at h
  · cases h
  · exact h

theorem find_withData (d' : Option α) (key : List Byte) :
    ((Node.node part d size off sz alloc nds).withData d').find key =
      if key = part then d' else (Node.node part d size off sz alloc nds).find key := by
  rw [withData]
  obtain rfl | ⟨k, ks, rfl⟩ | hpre := key_cases part key
  · rw [find_self, if_pos rfl]
  · rw [if_neg (by simp), find_append, find_append]
    rfl
  · rw [find_of_not_start hpre, find_of_not_start hpre, if_neg]
    rintro rfl
    exact hpre prefix_rfl

section

variable (h : Ok (.node part d size off sz alloc nds))

include h

theorem popped_end (hfull : ¬ Full (Node.node part d size off sz alloc nds).find part)
    (hshort : Short (Node.node part d size off sz alloc nds).find) :
    Popped (.node part d size off sz alloc nds) part
      (if size = 0 then .null
        else if size = 1 then ((Node.node part d size off sz alloc nds).withData none).mergeNode
        else (Node.node part d size off sz alloc nds).withData none, d) := by
  have hlt := card_lt_of_not_full h hfull
  have hsize : size = (Node.node part d size off sz alloc nds).kidBytes.card := by
    have heq := h.size_eq
    omega
  have hfound : d = (Node.node part d size off sz alloc nds).find part := find_self.symm
  by_cases hzero : size = 0
  · rw [if_pos hzero]
    refine ⟨.null, hfound, fun key => ?_⟩
    have hempty := Finset.card_eq_zero.mp (hsize.symm.trans hzero)
    rw [find_null]
    obtain rfl | ⟨k, ks, rfl⟩ | hpre := key_cases part key
    · rw [if_pos rfl]
    · have hnull : (Node.node part d size off sz alloc nds).kid k = .null := by
        by_contra hne
        rw [← Ne, ← mem_kidBytes, hempty] at hne
        exact Finset.notMem_empty k hne
      rw [if_neg (by simp), find_append, hnull, find_null]
    · rw [find_of_not_start hpre, ite_self]
  · rw [if_neg hzero]
    by_cases hone : size = 1
    · rw [if_pos hone]
      have hleft : Short ((Node.node part d size off sz alloc nds).withData none).find := by
        intro key a hkey
        rw [find_withData] at hkey
        exact hshort key a (find_of_ite hkey)
      obtain ⟨hok, hfind⟩ := merged_ok h.window h.kids (hsize.symm.trans hone) hleft
      refine ⟨hok, hfound, fun key => ?_⟩
      rw [← find_withData]
      exact hfind key
    · rw [if_neg hone]
      exact ⟨.node h.size_eq h.window (.inr (hsize ▸ by omega)) h.kids, hfound, find_withData none⟩

theorem decNode_ok {size' : ℕ}
    {nds' : ℕ → Node α} (hmem : k ∈ (Node.node part d size off sz alloc nds).kidBytes)
    (hset : SetsKid (.node part d size off sz alloc nds)
      (.node part d size' off sz alloc nds') k .null) (hsize : size' = size)
    (hshort : Short (Node.node part d size' off sz alloc nds').find) :
    Ok (Node.node part d size' off sz alloc nds').decNode ∧
      ∀ key, (Node.node part d size' off sz alloc nds').decNode.find key =
        (Node.node part d size' off sz alloc nds').find key := by
  have hcard : ∀ n, (Node.node part d n off sz alloc nds').kidBytes.card + 1 =
      (Node.node part d size off sz alloc nds).kidBytes.card := by
    intro n
    have hbytes : (Node.node part d n off sz alloc nds').kidBytes =
        (Node.node part d size off sz alloc nds).kidBytes.erase k := kidBytes_set hset
    rw [hbytes]
    exact Finset.card_erase_add_one hmem
  have hle := card_kidBytes_le (Node.node part d size off sz alloc nds)
  have hleft : (size' + 255) % 256 =
      (Node.node part d ((size' + 255) % 256) off sz alloc nds').kidBytes.card := by
    have hc := hcard ((size' + 255) % 256)
    have heq := h.size_eq
    omega
  have hkids : ∀ j, Ok ((Node.node part d ((size' + 255) % 256) off sz alloc nds').kid j) := by
    intro j
    have hj : (Node.node part d ((size' + 255) % 256) off sz alloc nds').kid j = _ := hset j
    rw [hj]
    split
    · exact .null
    · exact h.kids j
  have hbranches := h.branches
  have hc := hcard ((size' + 255) % 256)
  have hsame : ∀ key, (Node.node part d ((size' + 255) % 256) off sz alloc nds').find key =
      (Node.node part d size' off sz alloc nds').find key :=
    find_congr rfl fun _ _ => rfl
  rw [decNode]
  generalize (size' + 255) % 256 = left at *
  by_cases hzero : left = 0
  · simp only [hzero, if_true]
    have hempty : (Node.node part d left off sz alloc nds').kidBytes = ∅ :=
      Finset.card_eq_zero.mp (hleft.symm.trans hzero)
    refine ⟨.node ?_ nofun (.inl ?_) fun j => .null, fun key => ?_⟩
    · have hnone : (Node.node part d 0 off sz false fun _ => .null).kidBytes = ∅ := by
        ext j
        simp [mem_kidBytes, kid, covers]
      rw [hnone]
      rfl
    · exact hbranches.resolve_right (by omega)
    · refine find_congr rfl (fun j js => ?_) key
      have hnull : (Node.node part d size' off sz alloc nds').kid j = .null := by
        by_contra hne
        have hj : j ∈ (Node.node part d left off sz alloc nds').kidBytes :=
          mem_kidBytes.mpr hne
        rw [hempty] at hj
        exact Finset.notMem_empty j hj
      rw [hnull]
      rfl
  · simp only [hzero, if_false]
    by_cases hone : (decide (left = 1) && d.isNone) = true
    · rw [if_pos hone]
      simp only [Bool.and_eq_true, decide_eq_true_eq, Option.isNone_iff_eq_none] at hone
      obtain ⟨hone, rfl⟩ := hone
      obtain ⟨hok, hfind⟩ := merged_ok h.window hkids (hleft.symm.trans hone)
        fun key a hkey => hshort key a ((hsame key).symm.trans hkey)
      exact ⟨hok, fun key => (hfind key).trans (hsame key)⟩
    · rw [if_neg hone]
      refine ⟨.node (by omega) h.window ?_ hkids, hsame⟩
      cases d with
      | some x => exact .inl rfl
      | none =>
        have hne : left ≠ 1 := by simpa using hone
        exact .inr (by omega)

theorem popped_kid {ks : List Byte} {r : Node α × Option α} (hcov : covers off sz alloc k)
    (hn : (Node.node part d size off sz alloc nds).kid k ≠ .null)
    (hr : Popped ((Node.node part d size off sz alloc nds).kid k) ks r)
    (hshort : Short (Node.node part d size off sz alloc nds).find) :
    Popped (.node part d size off sz alloc nds) (part ++ k :: ks)
      (if r.1.isNull then ((Node.node part d size off sz alloc nds).setKid k r.1).decNode
        else (Node.node part d size off sz alloc nds).setKid k r.1, r.2) := by
  have hset : SetsKid (.node part d size off sz alloc nds)
      ((Node.node part d size off sz alloc nds).setKid k r.1) k r.1 := fun j => kid_setKid hcov
  have hmem := mem_kidBytes.mpr hn
  have hfound : r.2 = (Node.node part d size off sz alloc nds).find (part ++ k :: ks) := by
    rw [find_append, hr.found]
  rw [setKid] at hset ⊢
  have hfind := find_set hset hr.find
  cases hnull : r.1.isNull with
  | true =>
    rw [isNull_iff.mp hnull] at hset hfind ⊢
    have hleft := fun key a hkey => hshort key a (find_of_ite ((hfind key).symm.trans hkey))
    obtain ⟨hok, hsame⟩ := decNode_ok h hmem hset rfl hleft
    refine ⟨by simpa using hok, hfound, fun key => ?_⟩
    rw [← hfind, ← hsame]
    rfl
  | false =>
    have hbytes : (Node.node part d size off sz alloc
        (Function.update nds (k - off * 32) r.1)).kidBytes =
        (Node.node part d size off sz alloc nds).kidBytes := by
      rw [kidBytes_set hset, hnull, if_neg (by simp), Finset.insert_eq_of_mem hmem]
    refine ⟨?_, hfound, hfind⟩
    exact h.set hr.ok hset h.window (by rw [hbytes]; exact h.size_eq)
      (by rw [hbytes]; exact h.branches)

end

end Steps

theorem Ok.pop {nd : Node α} (h : Ok nd) {key : List Byte} (hfull : ¬ Full nd.find key)
    (hshort : Short nd.find) :
    ∃ r, nd.pop false key = some r ∧ Popped nd key r := by
  induction nd generalizing key with
  | null => exact ⟨_, rfl, .null, rfl, fun key' => by simp⟩
  | node part d size off sz alloc nds ih =>
    rw [Node.pop, overruns_false]
    simp only [Bool.false_eq_true, if_false]
    obtain rfl | ⟨k, ks, rfl⟩ | hpre := key_cases part key
    · have hself : key.isPrefixOf key = true := by simp
      simp only [hself, Bool.not_true, Bool.false_eq_true, if_false, drop_length]
      exact ⟨_, rfl, popped_end h hfull hshort⟩
    · have hself : part.isPrefixOf (part ++ k :: ks) = true := by simp
      simp only [hself, Bool.not_true, Bool.false_eq_true, if_false, drop_left]
      obtain ⟨hkid, hcov, hk, hn⟩ | ⟨hkid, hnull⟩ := kid_cases part d size off sz alloc nds k
      · have hfull' : ¬ Full (nds (k - off * 32)).find ks := by
          intro hall
          apply hfull
          intro b
          obtain ⟨s, hs⟩ := hall b
          refine ⟨s, ?_⟩
          rw [append_assoc, cons_append, find_append, hk]
          exact hs
        have hshort' : Short (nds (k - off * 32)).find := by
          intro key a hkey
          rw [← hk, ← find_append] at hkey
          exact length_lt_of_append (hshort _ a hkey)
        obtain ⟨r, hr, hpopped⟩ := ih _ (hk ▸ h.kids k) hfull' hshort'
        simp only [hkid, if_true, hr, Option.map_some]
        exact ⟨_, rfl, popped_kid h hcov hn (hk ▸ hpopped) hshort⟩
      · simp only [hkid, if_false, Bool.false_eq_true]
        have hnone : (Node.node part d size off sz alloc nds).find (part ++ k :: ks) = none := by
          rw [find_append, hnull, find_null]
        refine ⟨_, rfl, h, hnone.symm, fun key' => ?_⟩
        by_cases hkey : key' = part ++ k :: ks
        · rw [if_pos hkey, hkey, hnone]
        · rw [if_neg hkey]
    · simp only [isPrefixOf_eq_false hpre, Bool.not_false, if_true]
      refine ⟨_, rfl, h, (find_of_not_start hpre).symm, fun key' => ?_⟩
      by_cases hkey : key' = key
      · rw [if_pos hkey, hkey, find_of_not_start hpre]
      · rw [if_neg hkey]

end ThingsDB.Smap.Node
