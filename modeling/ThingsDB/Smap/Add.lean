import ThingsDB.Smap.Tree

/-!
# Adding to a tree

A new key ends inside of the key part of a node, which is cut there, at a node, or below one.
-/

namespace ThingsDB.Smap.Node

open List

variable {α : Type}

/-- Two lists have a common start after which the first one ends, or both differ. -/
theorem common_cases (part key : List Byte) :
    (common part key = part.length ∧ part <+: key) ∨ ∃ pre p rest,
      part = pre ++ p :: rest ∧ common part key = pre.length ∧
        (key = pre ∨ ∃ k ks, key = pre ++ k :: ks ∧ k ≠ p) := by
  induction part generalizing key with
  | nil => exact .inl ⟨by cases key <;> rfl, nil_prefix⟩
  | cons p part ih =>
    cases key with
    | nil => exact .inr ⟨[], p, part, rfl, rfl, .inl rfl⟩
    | cons k key =>
      by_cases hpk : p = k
      · subst hpk
        rw [common, if_pos rfl]
        obtain ⟨hlen, hpre⟩ | ⟨pre, q, rest, rfl, hlen, hkey⟩ := ih key
        · exact .inl ⟨by rw [hlen, length_cons], prefix_cons_inj p |>.mpr hpre⟩
        · refine .inr ⟨p :: pre, q, rest, rfl, by rw [hlen, length_cons], ?_⟩
          obtain rfl | ⟨k, ks, rfl, hne⟩ := hkey
          · exact .inl rfl
          · exact .inr ⟨k, ks, rfl, hne⟩
      · refine .inr ⟨[], p, part, rfl, by rw [common, if_neg hpk]; rfl, .inr ⟨k, key, rfl, ?_⟩⟩
        exact Ne.symm hpk

variable {key ks : List Byte} {d' : Option α} {k : Byte} {size' : ℕ}

section Set

variable {part : List Byte} {d : Option α} {size off sz : ℕ} {alloc : Bool}
  {nds : ℕ → Node α} {size' off' sz' : ℕ} {alloc' : Bool} {nds' : ℕ → Node α}
  {k : Byte} {c : Node α}

def SetsKid (nd nd' : Node α) (k : Byte) (c : Node α) : Prop :=
  ∀ j, nd'.kid j = if j = k then c else nd.kid j

section

variable
  (h : SetsKid (.node part d size off sz alloc nds)
    (.node part d size' off' sz' alloc' nds') k c)

include h

theorem find_set_self (ks : List Byte) :
    (Node.node part d size' off' sz' alloc' nds').find (part ++ k :: ks) = c.find ks := by
  rw [find_append, h, if_pos rfl]

theorem find_set_of_ne (hkey : ∀ ks, key ≠ part ++ k :: ks) :
    (Node.node part d size' off' sz' alloc' nds').find key =
      (Node.node part d size off sz alloc nds).find key := by
  obtain rfl | ⟨j, ks, rfl⟩ | hpre := key_cases part key
  · rw [find_self, find_self]
  · have hj : j ≠ k := by
      rintro rfl
      exact hkey ks rfl
    rw [find_append, find_append, h, if_neg hj]
  · rw [find_of_not_start hpre, find_of_not_start hpre]

/-- If one key changes below a child node, then that key with the bytes before it changes. -/
theorem find_set {x : Option α}
    (hc : ∀ key, c.find key = if key = ks then x
      else ((Node.node part d size off sz alloc nds).kid k).find key) (key : List Byte) :
    (Node.node part d size' off' sz' alloc' nds').find key =
      if key = part ++ k :: ks then x
      else (Node.node part d size off sz alloc nds).find key := by
  by_cases hkey : ∃ js, key = part ++ k :: js
  · obtain ⟨js, rfl⟩ := hkey
    rw [find_set_self h, hc, find_append]
    simp
  · simp only [not_exists] at hkey
    rw [find_set_of_ne h hkey, if_neg (hkey ks)]

end

section

variable (h : Ok (.node part d size off sz alloc nds))

include h

theorem Ok.window : alloc → off + sz ≤ 8 := by
  cases h with
  | node size_eq window branches kids => exact window

theorem Ok.kids (k : Byte) : Ok ((Node.node part d size off sz alloc nds).kid k) := by
  cases h with
  | node size_eq window branches kids => exact kids k

theorem Ok.size_eq : size = (Node.node part d size off sz alloc nds).kidBytes.card % 256 := by
  cases h with
  | node size_eq window branches kids => exact size_eq

theorem Ok.branches :
    d.isSome ∨ 2 ≤ (Node.node part d size off sz alloc nds).kidBytes.card := by
  cases h with
  | node size_eq window branches kids => exact branches

theorem Ok.set (hc : Ok c)
    (hset : SetsKid (.node part d size off sz alloc nds)
      (.node part d' size' off' sz' alloc' nds') k c)
    (hwin : alloc' → off' + sz' ≤ 8)
    (hsize : size' = (Node.node part d' size' off' sz' alloc' nds').kidBytes.card % 256)
    (hbranches : d'.isSome ∨
      2 ≤ (Node.node part d' size' off' sz' alloc' nds').kidBytes.card) :
    Ok (.node part d' size' off' sz' alloc' nds') := by
  refine .node hsize hwin hbranches fun j => ?_
  rw [hset]
  by_cases hj : j = k
  · rwa [if_pos hj]
  · rw [if_neg hj]
    exact h.kids j

end

end Set

theorem length_lt_of_append {part ks : List Byte} {n : ℕ} (h : (part ++ k :: ks).length < n) :
    ks.length < n := by
  rw [length_append, length_cons] at h
  omega

structure Added (nd : Node α) (key : List Byte) (a : α) (r : Node α × Bool) : Prop where
  ok : Ok r.1
  notNull : r.1 ≠ .null
  new : r.2 = (nd.find key).isNone
  find : ∀ key', r.1.find key' = if key' = key then some ((nd.find key).getD a) else nd.find key'

section Split

variable {pre rest : List Byte} {p : Byte} {d : Option α} {size off sz : ℕ} {alloc : Bool}
  {nds : ℕ → Node α}

theorem find_cut (key : List Byte) :
    (Node.node rest d size off sz alloc nds).find key =
      (Node.node (pre ++ p :: rest) d size off sz alloc nds).find (pre ++ p :: key) := by
  have hassoc : ∀ l, (pre ++ p :: rest) ++ l = pre ++ p :: (rest ++ l) := by simp
  obtain rfl | ⟨k, ks, rfl⟩ | h := key_cases rest key
  · rw [find_self, find_self]
  · rw [find_append, ← hassoc, find_append]
    rfl
  · rw [find_of_not_start h, find_of_not_start]
    rw [prefix_append_right_inj, prefix_cons_inj]
    exact h

theorem find_cut_ne (h : ∀ ks, key ≠ pre ++ p :: ks) :
    (Node.node (pre ++ p :: rest) d size off sz alloc nds).find key = none := by
  apply find_of_not_start
  rintro ⟨ks, rfl⟩
  exact h (rest ++ ks) (by simp)

theorem kid_cut {old : Node α} (j : Byte) :
    (Node.node pre d' size' (p / 32) 1 true fun i => if i = p % 32 then old else .null).kid j =
      if j = p then old else .null := by
  rw [kid]
  by_cases hj : j = p
  · subst hj
    have hcov : covers (j / 32) 1 true j = true := covers_iff.mpr ⟨rfl, by omega, by omega⟩
    have hidx : (j : ℕ) - j / 32 * 32 = j % 32 := by omega
    rw [if_pos hcov, if_pos hidx, if_pos rfl]
  · rw [if_neg hj]
    split
    · rename_i hcov
      have hwin := covers_iff.mp hcov
      have hne : (j : ℕ) ≠ p := fun heq => hj (Fin.ext heq)
      rw [if_neg (by omega)]
    · rfl

theorem Ok.cut (h : Ok (.node (pre ++ p :: rest) d size off sz alloc nds)) :
    Ok (.node rest d size off sz alloc nds) :=
  .node h.size_eq h.window h.branches h.kids

theorem kidBytes_cut :
    (Node.node pre d' size' (p / 32) 1 true fun i =>
      if i = p % 32 then .node rest d size off sz alloc nds else .null).kidBytes = {p} := by
  ext j
  rw [mem_kidBytes, kid_cut, Finset.mem_singleton]
  by_cases hj : j = p <;> simp [hj]

theorem ne_of_not_start (h : ¬ pre <+: key) (ks : List Byte) : key ≠ pre ++ ks := by
  rintro rfl
  exact h (prefix_append _ _)

section

variable (h : Ok (.node (pre ++ p :: rest) d size off sz alloc nds)) (a : α)

include h a

theorem added_split_end :
    Added (.node (pre ++ p :: rest) d size off sz alloc nds) pre a
      ((Node.node (pre ++ p :: rest) d size off sz alloc nds).split pre.length pre a, true) := by
  have hsplit : (Node.node (pre ++ p :: rest) d size off sz alloc nds).split pre.length pre a =
      .node pre (some a) 1 (p / 32) 1 true fun i =>
        if i = p % 32 then .node rest d size off sz alloc nds else .null := by
    simp only [split, drop_left, drop_length, take_left]
  have hnone : (Node.node (pre ++ p :: rest) d size off sz alloc nds).find pre = none :=
    find_cut_ne (by simp)
  rw [hsplit]
  refine ⟨.node ?_ (fun _ => by omega) (.inl rfl) fun k => ?_, nofun, by rw [hnone]; rfl,
    fun key => ?_⟩
  · rw [kidBytes_cut, Finset.card_singleton]
  · rw [kid_cut]
    split
    · exact h.cut
    · exact .null
  · rw [hnone]
    obtain rfl | ⟨k, ks, rfl⟩ | hpre := key_cases pre key
    · rw [find_self, if_pos rfl]
      rfl
    · have hne : pre ++ k :: ks ≠ pre := by simp
      rw [find_append, kid_cut, if_neg hne]
      by_cases hk : k = p
      · rw [if_pos hk, hk, find_cut]
      · rw [if_neg hk, find_null, find_cut_ne]
        intro js heq
        exact hk (List.cons.inj (append_cancel_left heq)).1
    · rw [find_of_not_start hpre, if_neg, find_cut_ne fun js => ne_of_not_start hpre _]
      rintro rfl
      exact hpre prefix_rfl

theorem added_split (hkp : k ≠ p) {ks : List Byte} (hks : ks.length < 2 ^ 32) :
    Added (.node (pre ++ p :: rest) d size off sz alloc nds) (pre ++ k :: ks) a
      ((Node.node (pre ++ p :: rest) d size off sz alloc nds).split pre.length
        (pre ++ k :: ks) a, true) := by
  obtain ⟨off', sz', nds', hstore, hwin, hkid⟩ := store_node pre none 2 (p / 32) 1 true
    (fun i => if i = p % 32 then .node rest d size off sz alloc nds else .null) k
    (create ks a) (fun _ => by omega)
  have hsplit : (Node.node (pre ++ p :: rest) d size off sz alloc nds).split pre.length
      (pre ++ k :: ks) a = .node pre none 2 off' sz' true nds' := by
    simp only [split, drop_left, take_left]
    exact hstore
  have hnone : (Node.node (pre ++ p :: rest) d size off sz alloc nds).find
      (pre ++ k :: ks) = none := by
    apply find_cut_ne
    intro js heq
    exact hkp (List.cons.inj (append_cancel_left heq)).1
  have hcard : (Node.node pre none 2 off' sz' true nds').kidBytes.card = 2 := by
    rw [kidBytes_set hkid, kidBytes_cut]
    exact Finset.card_pair hkp
  rw [hsplit]
  refine ⟨.node (by rw [hcard]) (fun _ => hwin) (.inr hcard.ge) fun j => ?_, nofun,
    by rw [hnone]; rfl, fun key => ?_⟩
  · rw [hkid, kid_cut]
    split
    · exact ok_create ks a
    · split
      · exact h.cut
      · exact .null
  · rw [hnone]
    obtain rfl | ⟨j, js, rfl⟩ | hpre := key_cases pre key
    · rw [find_self, if_neg (by simp), find_cut_ne (by simp)]
    · rw [find_append, hkid, kid_cut]
      by_cases hj : j = k
      · subst hj
        have hne : ∀ js', pre ++ j :: js ≠ pre ++ p :: js' := by
          intro js' heq
          exact hkp (List.cons.inj (append_cancel_left heq)).1
        rw [if_pos rfl, find_create hks, find_cut_ne hne]
        simp
      · have hne : pre ++ j :: js ≠ pre ++ k :: ks := by
          intro heq
          exact hj (List.cons.inj (append_cancel_left heq)).1
        rw [if_neg hj, if_neg hne]
        by_cases hp : j = p
        · rw [if_pos hp, hp, find_cut]
        · rw [if_neg hp, find_null, find_cut_ne]
          intro js' heq
          exact hp (List.cons.inj (append_cancel_left heq)).1
    · rw [find_of_not_start hpre, if_neg (ne_of_not_start hpre _),
        find_cut_ne fun js => ne_of_not_start hpre _]

end

end Split

section Below

variable {part : List Byte} {d : Option α} {size off sz : ℕ} {alloc : Bool}
  {nds : ℕ → Node α}

section

variable (h : Ok (.node part d size off sz alloc nds))

include h

theorem added_end (a : α) :
    Added (.node part d size off sz alloc nds) part a
      (if d.isSome then (.node part d size off sz alloc nds, false)
        else ((Node.node part d size off sz alloc nds).withData (some a), true)) := by
  cases d with
  | some x =>
    simp only [Option.isSome_some, if_true]
    refine ⟨h, nofun, by rw [find_self]; rfl, fun key => ?_⟩
    by_cases hkey : key = part
    · rw [if_pos hkey, hkey, find_self]
      rfl
    · rw [if_neg hkey]
  | none =>
    simp only [Option.isSome_none, Bool.false_eq_true, if_false]
    refine ⟨.node h.size_eq h.window (.inl rfl) h.kids, nofun, by rw [find_self]; rfl,
      fun key => ?_⟩
    obtain rfl | ⟨k, ks, rfl⟩ | hpre := key_cases part key
    · rw [find_self, if_pos rfl, withData, find_self]
      rfl
    · rw [if_neg (by simp), withData, find_append, find_append]
      rfl
    · rw [withData, find_of_not_start hpre, find_of_not_start hpre, if_neg]
      rintro rfl
      exact hpre prefix_rfl

theorem added_kid {a : α} {r : Node α × Bool}
    (hn : (Node.node part d size off sz alloc nds).kid k ≠ .null)
    (hr : Added ((Node.node part d size off sz alloc nds).kid k) ks a r) :
    Added (.node part d size off sz alloc nds) (part ++ k :: ks) a
      ((Node.node part d size off sz alloc nds).store k r.1, r.2) := by
  obtain ⟨off', sz', nds', hstore, hwin, hkid⟩ :=
    store_node part d size off sz alloc nds k r.1 h.window
  have hbytes : (Node.node part d size off' sz' true nds').kidBytes =
      (Node.node part d size off sz alloc nds).kidBytes := by
    have hnull : r.1.isNull = false := by
      rw [← Bool.not_eq_true, isNull_iff]
      exact hr.notNull
    rw [kidBytes_set hkid, hnull, if_neg (by simp), Finset.insert_eq_of_mem (mem_kidBytes.mpr hn)]
  rw [hstore]
  refine ⟨h.set hr.ok hkid (fun _ => hwin) ?_ ?_, nofun, ?_, fun key => ?_⟩
  · rw [hbytes]
    exact h.size_eq
  · rw [hbytes]
    exact h.branches
  · rw [find_append, hr.new]
  · rw [find_append]
    exact find_set hkid hr.find key

theorem added_new (a : α) {ks : List Byte} (hks : ks.length < 2 ^ 32)
    (hn : (Node.node part d size off sz alloc nds).kid k = .null) :
    Added (.node part d size off sz alloc nds) (part ++ k :: ks) a
      (((Node.node part d size off sz alloc nds).store k (create ks a)).withSize
        (if alloc then (size + 1) % 256 else 1), true) := by
  obtain ⟨off', sz', nds', hstore, hwin, hkid⟩ :=
    store_node part d size off sz alloc nds k (create ks a) h.window
  have hnone : (Node.node part d size off sz alloc nds).find (part ++ k :: ks) = none := by
    rw [find_append, hn, find_null]
  have hcard : (Node.node part d (if alloc then (size + 1) % 256 else 1) off' sz' true
      nds').kidBytes.card = (Node.node part d size off sz alloc nds).kidBytes.card + 1 := by
    have hset : (Node.node part d (if alloc then (size + 1) % 256 else 1) off' sz' true
        nds').kidBytes = insert k (Node.node part d size off sz alloc nds).kidBytes :=
      kidBytes_set hkid
    rw [hset, Finset.card_insert_of_notMem]
    rw [mem_kidBytes, not_not]
    exact hn
  have hset : SetsKid (.node part d size off sz alloc nds)
      (.node part d (if alloc then (size + 1) % 256 else 1) off' sz' true nds') k
      (create ks a) := hkid
  rw [hstore, withSize]
  refine ⟨h.set (ok_create ks a) hset (fun _ => hwin) ?_ ?_, nofun, by rw [hnone]; rfl,
    fun key => ?_⟩
  · rw [hcard]
    cases alloc with
    | true =>
      have hsize := h.size_eq
      rw [if_pos rfl]
      omega
    | false =>
      have hempty : (Node.node part d size off sz false nds).kidBytes = ∅ := by
        ext j
        simp [mem_kidBytes, kid, covers]
      rw [if_neg (by simp), hempty]
      rfl
  · rw [hcard]
    exact h.branches.imp id (Nat.le_succ_of_le)
  · rw [hnone]
    refine find_set hset (fun key => ?_) key
    rw [find_create hks, hn, find_null]
    rfl

end

end Below

theorem Ok.add {nd : Node α} (h : Ok nd) {key : List Byte} (hkey : key.length < 2 ^ 32) (a : α) :
    ∃ r, nd.add false a key = some r ∧ Added nd key a r := by
  induction nd generalizing key with
  | null =>
    refine ⟨_, rfl, ok_create key a, nofun, rfl, fun key' => ?_⟩
    rw [find_create hkey]
    rfl
  | node part d size off sz alloc nds ih =>
    rw [Node.add, overruns_false]
    simp only [Bool.false_eq_true, if_false]
    obtain ⟨hlen, ks, rfl⟩ | ⟨pre, p, rest, rfl, hlen, hrest⟩ := common_cases part key
    · rw [hlen, if_neg (Nat.lt_irrefl _), drop_left]
      cases ks with
      | nil =>
        rw [append_nil]
        exact ⟨_, rfl, added_end h a⟩
      | cons k ks =>
        have hks := length_lt_of_append hkey
        obtain ⟨hkid, -, hk, hn⟩ | ⟨hkid, hnull⟩ := kid_cases part d size off sz alloc nds k
        · obtain ⟨r, hr, hadded⟩ := ih _ (hk ▸ h.kids k) hks
          simp only [hkid, if_true, hr, Option.map_some]
          exact ⟨_, rfl, added_kid h hn (hk ▸ hadded)⟩
        · simp only [hkid, if_false, Bool.false_eq_true]
          exact ⟨_, rfl, added_new h a hks hnull⟩
    · have hlt : pre.length < (pre ++ p :: rest).length := by simp
      rw [hlen, if_pos hlt]
      refine ⟨_, rfl, ?_⟩
      obtain rfl | ⟨k, ks, rfl, hkp⟩ := hrest
      · exact added_split_end h a
      · exact added_split h a hkp (length_lt_of_append hkey)

end ThingsDB.Smap.Node
