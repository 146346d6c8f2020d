import Mathlib.Data.Fintype.Card
import ThingsDB.Smap.Node

/-!
# Trees of string maps

What is found under a node, and the rule for the nodes of a tree: the size is the number of child
nodes in eight bits, and a node has data or at least two child nodes.
-/

namespace ThingsDB.Smap.Node

variable {α : Type}
variable {key part : List Byte} {nds : ℕ → Node α} {alloc : Bool} {nd : Node α} {d : Option α}
  {off : ℕ}

section Kid

variable {nd : Node α} {k j : Byte} {c : Node α}

theorem kid_node_of_covers {size sz : ℕ} (h : covers off sz alloc k) :
    (Node.node part d size off sz alloc nds).kid k = nds (k - off * 32) := by
  rw [kid, if_pos h]

theorem covers_iff {sz : ℕ} :
    covers off sz alloc k ↔ alloc ∧ off ≤ k / 32 ∧ k / 32 < off + sz := by
  simp [covers]

@[simp]
theorem kid_create (key : List Byte) (a : α) : (create key a).kid k = .null := rfl

theorem isNull_iff : nd.isNull ↔ nd = .null := by
  cases nd <;> simp [isNull]

theorem kid_resize (pos : ℕ) : (nd.resize pos).kid k = nd.kid k := by
  cases nd with
  | null => rfl
  | node part d size off sz alloc nds =>
    cases alloc with
    | false => simp [resize, kid, covers]
    | true =>
      simp only [resize, Bool.not_true, Bool.false_eq_true, if_false]
      by_cases hlow : pos < off
      · simp only [hlow, if_true, kid, covers, Bool.true_and, Bool.and_eq_true, decide_eq_true_eq]
        by_cases hk : off ≤ (k : ℕ) / 32
        · have hidx : ¬ (k : ℕ) - pos * 32 < (off - pos) * 32 := by omega
          have heq : (k : ℕ) - pos * 32 - (off - pos) * 32 = k - off * 32 := by omega
          have hwin : (pos ≤ (k : ℕ) / 32 ∧ (k : ℕ) / 32 < pos + (sz + (off - pos))) ↔
              (off ≤ (k : ℕ) / 32 ∧ (k : ℕ) / 32 < off + sz) := by omega
          simp only [hidx, if_false, heq, hwin]
        · have hidx : pos ≤ (k : ℕ) / 32 → (k : ℕ) - pos * 32 < (off - pos) * 32 := by omega
          have hnot : ¬ (off ≤ (k : ℕ) / 32 ∧ (k : ℕ) / 32 < off + sz) := by omega
          rw [if_neg hnot]
          split
          · rename_i h
            rw [if_pos (hidx h.1)]
          · rfl
      · simp only [hlow, if_false]
        by_cases hhigh : off + sz ≤ pos
        · simp only [hhigh, if_true, kid, covers, Bool.true_and, Bool.and_eq_true,
            decide_eq_true_eq]
          by_cases hk : off ≤ (k : ℕ) / 32 ∧ (k : ℕ) / 32 < off + sz
          · have hidx : (k : ℕ) - off * 32 < sz * 32 := by omega
            have hwin : off ≤ (k : ℕ) / 32 ∧
                (k : ℕ) / 32 < off + (sz + (pos - off - sz + 1)) := by omega
            rw [if_pos hk, if_pos hwin, if_pos hidx]
          · rw [if_neg hk]
            split
            · rename_i h
              have hidx : ¬ (k : ℕ) - off * 32 < sz * 32 := by omega
              rw [if_neg hidx]
            · rfl
        · simp only [hhigh, if_false]

theorem kid_setKid {size sz : ℕ} (h : covers off sz alloc k) :
    ((Node.node part d size off sz alloc nds).setKid k c).kid j =
      if j = k then c else (Node.node part d size off sz alloc nds).kid j := by
  simp only [setKid, kid]
  by_cases hj : j = k
  · subst hj
    rw [if_pos h, if_pos rfl, Function.update_self]
  · rw [if_neg hj]
    split
    · rename_i hcov
      have hk := covers_iff.mp h
      have hjc := covers_iff.mp hcov
      have hne : (j : ℕ) ≠ k := fun heq => hj (Fin.ext heq)
      rw [Function.update_of_ne (by omega)]
    · rfl

/-- The test before a call goes on to a child node. -/
theorem kid_cases (part : List Byte) (d : Option α) (size off sz : ℕ) (alloc : Bool)
    (nds : ℕ → Node α) (k : Byte) :
    ((covers off sz alloc k && !(nds (k - off * 32)).isNull) = true ∧
      covers off sz alloc k = true ∧
      (Node.node part d size off sz alloc nds).kid k = nds (k - off * 32) ∧
      (Node.node part d size off sz alloc nds).kid k ≠ .null) ∨
    ((covers off sz alloc k && !(nds (k - off * 32)).isNull) = false ∧
      (Node.node part d size off sz alloc nds).kid k = .null) := by
  cases hcov : covers off sz alloc k with
  | false => exact .inr ⟨rfl, by rw [kid, hcov, if_neg Bool.false_ne_true]⟩
  | true =>
    rw [kid_node_of_covers hcov, Bool.true_and]
    cases nds (k - off * 32) with
    | null => exact .inr ⟨rfl, rfl⟩
    | node => exact .inl ⟨rfl, rfl, rfl, nofun⟩

theorem resize_node (part : List Byte) (d : Option α) (size off sz : ℕ) (alloc : Bool)
    (nds : ℕ → Node α) (k : Byte) (hwin : alloc → off + sz ≤ 8) :
    ∃ off' sz' nds', (Node.node part d size off sz alloc nds).resize (k / 32) =
      .node part d size off' sz' true nds' ∧ covers off' sz' true k ∧
      off' + sz' ≤ 8 := by
  have hk : (k : ℕ) / 32 ≤ 7 := by omega
  cases alloc with
  | false => exact ⟨_, _, _, rfl, by simp [covers], by omega⟩
  | true =>
    have hwin := hwin rfl
    simp only [resize, Bool.not_true, Bool.false_eq_true, if_false]
    by_cases hlow : (k : ℕ) / 32 < off
    · exact ⟨_, _, _, if_pos hlow, covers_iff.mpr ⟨rfl, by omega, by omega⟩, by omega⟩
    · by_cases hhigh : off + sz ≤ (k : ℕ) / 32
      · exact ⟨_, _, _, (if_neg hlow).trans (if_pos hhigh),
          covers_iff.mpr ⟨rfl, by omega, by omega⟩, by omega⟩
      · exact ⟨_, _, _, (if_neg hlow).trans (if_neg hhigh),
          covers_iff.mpr ⟨rfl, by omega, by omega⟩, hwin⟩

/-- The node with one child node written is as before apart from that child. -/
theorem store_node (part : List Byte) (d : Option α) (size off sz : ℕ) (alloc : Bool)
    (nds : ℕ → Node α) (k : Byte) (c : Node α) (hwin : alloc → off + sz ≤ 8) :
    ∃ off' sz' nds', (Node.node part d size off sz alloc nds).store k c =
      .node part d size off' sz' true nds' ∧ off' + sz' ≤ 8 ∧
      ∀ j, (Node.node part d size off' sz' true nds').kid j =
        if j = k then c else (Node.node part d size off sz alloc nds).kid j := by
  obtain ⟨off', sz', nds', hres, hcov, hwin'⟩ :=
    resize_node part d size off sz alloc nds k hwin
  refine ⟨off', sz', Function.update nds' (k - off' * 32) c, ?_, hwin', fun j => ?_⟩
  · rw [store, hres, setKid]
  · have hset : ((Node.node part d size off' sz' true nds').setKid k c).kid j = _ :=
      kid_setKid hcov
    rw [setKid] at hset
    rw [hset, ← hres, kid_resize]

end Kid

def find (nd : Node α) (key : List Byte) : Option α := (nd.get false key).join

section Find

variable {part : List Byte} {d : Option α} {size off sz : ℕ} {alloc : Bool}
  {nds : ℕ → Node α}

@[simp]
theorem find_null (key : List Byte) : (null : Node α).find key = none := rfl

theorem overruns_false (part key : List Byte) : overruns false part key = false := rfl

theorem isPrefixOf_eq_false (h : ¬ part <+: key) : part.isPrefixOf key = false := by
  rwa [← Bool.not_eq_true, List.isPrefixOf_iff_prefix]

theorem find_of_not_start (h : ¬ part <+: key) :
    (Node.node part d size off sz alloc nds).find key = none := by
  rw [find, get, overruns_false, isPrefixOf_eq_false h]
  rfl

theorem find_self : (Node.node part d size off sz alloc nds).find part = d := by
  have hpre : part.isPrefixOf part = true := by simp
  rw [find, get, overruns_false, hpre, List.drop_length]
  rfl

theorem find_append (k : Byte) (ks : List Byte) :
    (Node.node part d size off sz alloc nds).find (part ++ k :: ks) =
      ((Node.node part d size off sz alloc nds).kid k).find ks := by
  have hpre : part.isPrefixOf (part ++ k :: ks) = true := by simp
  rw [find, get, overruns_false, hpre, List.drop_left, kid]
  simp only [Bool.not_true, Bool.false_eq_true, if_false]
  by_cases hcov : covers off sz alloc k = true
  · rw [if_pos hcov, if_pos hcov, find]
  · rw [if_neg hcov, if_neg hcov]
    rfl

theorem get_false (nd : Node α) (key : List Byte) : nd.get false key = some (nd.find key) := by
  induction nd generalizing key with
  | null => rfl
  | node part d size off sz alloc nds ih =>
    rw [find, get, overruns_false]
    cases part.isPrefixOf key with
    | false => rfl
    | true =>
      simp only [Bool.not_true, Bool.false_eq_true, if_false]
      cases key.drop part.length with
      | nil => rfl
      | cons k ks =>
        by_cases hcov : covers off sz alloc k = true
        · simp only [hcov, if_true, ih, Option.join_some]
        · simp only [hcov, if_false, Option.join_some, Bool.false_eq_true]

/-- A key ends at the node, goes on to a child node, or is not below the node. -/
theorem key_cases (part key : List Byte) :
    key = part ∨ (∃ k ks, key = part ++ k :: ks) ∨ ¬ part <+: key := by
  by_cases h : part <+: key
  · obtain ⟨rest, rfl⟩ := h
    cases rest with
    | nil => exact .inl (List.append_nil part)
    | cons k ks => exact .inr (.inl ⟨k, ks, rfl⟩)
  · exact .inr (.inr h)

/-- Nodes which find the same at their own key and below it are alike. -/
theorem find_congr {d' : Option α} {size' off' sz' : ℕ} {alloc' : Bool} {nds' : ℕ → Node α}
    (hd : d' = d) (hkids : ∀ k ks,
      ((Node.node part d' size' off' sz' alloc' nds').kid k).find ks =
        ((Node.node part d size off sz alloc nds).kid k).find ks) (key : List Byte) :
    (Node.node part d' size' off' sz' alloc' nds').find key =
      (Node.node part d size off sz alloc nds).find key := by
  obtain rfl | ⟨k, ks, rfl⟩ | h := key_cases part key
  · rw [find_self, find_self, hd]
  · rw [find_append, find_append, hkids]
  · rw [find_of_not_start h, find_of_not_start h]

end Find

def kidBytes (nd : Node α) : Finset Byte := Finset.univ.filter fun k => !(nd.kid k).isNull

theorem mem_kidBytes {k : Byte} : k ∈ nd.kidBytes ↔ nd.kid k ≠ .null := by
  rw [kidBytes, Finset.mem_filter, Ne, ← isNull_iff]
  simp

theorem card_kidBytes_le (nd : Node α) : nd.kidBytes.card ≤ 256 := by
  have h := Finset.card_le_univ nd.kidBytes
  rwa [Fintype.card_fin] at h

inductive Ok : Node α → Prop
  | null : Ok .null
  | node {part : List Byte} {d : Option α} {size off sz : ℕ} {alloc : Bool}
    {nds : ℕ → Node α}
    (size_eq : size = (Node.node part d size off sz alloc nds).kidBytes.card % 256)
    (window : alloc = true → off + sz ≤ 8)
    (branches : d.isSome = true ∨ 2 ≤ (Node.node part d size off sz alloc nds).kidBytes.card)
    (kids : ∀ k, Ok ((Node.node part d size off sz alloc nds).kid k)) :
    Ok (.node part d size off sz alloc nds)

theorem kidBytes_set {nd' c : Node α} {k : Byte}
    (h : ∀ j, nd'.kid j = if j = k then c else nd.kid j) :
    nd'.kidBytes = if c.isNull then nd.kidBytes.erase k else insert k nd.kidBytes := by
  ext j
  rw [mem_kidBytes, h]
  by_cases hj : j = k
  · subst hj
    cases c <;> simp [isNull]
  · cases c <;> simp [isNull, hj, mem_kidBytes]

theorem inBits_of_lt {part : List Byte} (h : part.length < 2 ^ 32) : inBits part = part := by
  rw [inBits, Nat.mod_eq_of_lt h, List.take_length]

theorem ok_create (key : List Byte) (a : α) : Ok (create key a) := by
  have hempty : (create key a).kidBytes = ∅ := by
    ext k
    simp [mem_kidBytes]
  rw [create] at hempty ⊢
  refine .node ?_ nofun (.inl rfl) fun k => .null
  rw [hempty]
  rfl

theorem find_create {key : List Byte} (hkey : key.length < 2 ^ 32) (key' : List Byte) (a : α) :
    (create key a).find key' = if key' = key then some a else none := by
  rw [create, inBits_of_lt hkey]
  obtain rfl | ⟨k, ks, rfl⟩ | h := key_cases key key'
  · rw [find_self, if_pos rfl]
  · rw [find_append, if_neg (by simp)]
    rfl
  · rw [find_of_not_start h, if_neg]
    rintro rfl
    exact h List.prefix_rfl

/-- There is something under every node. -/
theorem Ok.exists_find (h : Ok nd) (hn : nd ≠ .null) : ∃ key a, nd.find key = some a := by
  induction h with
  | null => exact absurd rfl hn
  | @node part d size off sz alloc nds size_eq window branches kids ih =>
    cases d with
    | some a => exact ⟨part, a, find_self⟩
    | none =>
      have htwo : 2 ≤ (Node.node part none size off sz alloc nds).kidBytes.card := by
        simpa using branches
      obtain ⟨k, hk⟩ := Finset.card_pos.mp (Nat.lt_of_lt_of_le Nat.zero_lt_two htwo)
      obtain ⟨key, a, hfind⟩ := ih k (mem_kidBytes.mp hk)
      exact ⟨part ++ k :: key, a, by rw [find_append, hfind]⟩

end ThingsDB.Smap.Node
