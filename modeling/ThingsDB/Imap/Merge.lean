import Mathlib.Algebra.Order.BigOperators.Group.Finset
import ThingsDB.Imap.Sound

/-!
# Loops over child nodes

What one round of a loop has to do for a child so that the whole loop merges two nodes, and the
nodes on which the loops run.
-/

namespace ThingsDB.Imap.Node

open Paths

variable {α : Type} {f : Bool → Bool → Bool} {val : List Key → α}

theorem wrap_natCast {w n : ℕ} (h : n < 2 ^ w) : wrap w n = n := by
  rw [wrap, ← Nat.cast_ofNat, ← Nat.cast_pow, ← Int.natCast_mod, Int.toNat_natCast,
    Nat.mod_eq_of_lt h]

/-- The entries of two nodes, merged, can be counted in 32 bits. -/
def Fits (f : Bool → Bool → Bool) (a b : Node α) : Prop :=
  ∑ k, (merged f (a.under k) (b.under k)).card < 2 ^ 32

/-- A child node is made of those of two nodes, and the number of entries changes as it should
if there were `old` entries before. -/
structure Round (f : Bool → Bool → Bool) (val : List Key → α) (a b : Node α) (old : ℤ)
    (r : Node α × ℤ) : Prop where
  sound : Sound val r.1
  data : r.1.data.isSome = f a.data.isSome b.data.isSome
  under : ∀ k, r.1.under k = merged f (a.under k) (b.under k)
  change : r.2 = one r.1.data.isSome + r.1.sz - old

/-- A node is made of the entries below two nodes. -/
structure Merged (f : Bool → Bool → Bool) (val : List Key → α) (a b nd : Node α) : Prop where
  summed : Summed val nd
  under : ∀ k, nd.under k = merged f (a.under k) (b.under k)

def entries (nd : Node α) : ℤ := one nd.data.isSome + nd.sz

variable {a b nd : Node α}

theorem Sound.entries_eq (h : Sound val nd) : nd.entries = nd.paths.card := by
  rw [entries, card_paths, h.sz, one, Nat.cast_add, Nat.cast_ite, Nat.cast_one, Nat.cast_zero]

theorem Round.paths {old : ℤ} {r : Node α × ℤ} (hf : f false false = false)
    (h : Round f val a b old r) : r.1.paths = merged f a.paths b.paths := by
  apply ext_tails
  · rw [nil_mem_paths, mem_merged hf, h.data]
    simp
  · intro k
    rw [tails_merged hf, tails_paths, tails_paths, tails_paths, h.under]

theorem fits_ensureNode (hf : f false false = false) (h : Fits f a b) (k : Key) :
    Fits f (a.ensureNode k) (b.ensureNode k) := by
  have hone : (merged f (a.under k) (b.under k)).card ≤
      ∑ k, (merged f (a.under k) (b.under k)).card :=
    Finset.single_le_sum (f := fun k => (merged f (a.under k) (b.under k)).card)
      (fun _ _ => Nat.zero_le _) (Finset.mem_univ k)
  have hcard := Paths.card_eq (merged f (a.under k) (b.under k))
  simp only [tails_merged hf, Node.under, tails_paths] at hcard
  unfold Fits at h ⊢
  simp only [Node.under] at hone h ⊢
  omega

section Loop

variable {src : Node α} {d : Option α} {s : ℕ} {g : Key → Node α → Node α × ℤ}

@[simp]
theorem data_loop : (src.loop d s g).data = d := by
  cases src <;> rfl

theorem getNode_loop (k : Key) :
    (src.loop d s g).getNode k = (src.getNode k).map fun c => (g k c).1 := by
  cases src with
  | null => rfl
  | single d' s' key c =>
    by_cases hkey : key = k
    · subst hkey
      simp [loop, getNode]
    · simp [loop, getNode, hkey]
  | full d' s' f => rfl

def changes (src : Node α) (g : Key → Node α → Node α × ℤ) (k : Key) : ℤ :=
  ((src.getNode k).map fun c => (g k c).2).getD 0

theorem sz_loop (hn : src.hasNodes) : (src.loop d s g).sz = wrap 32 (s + ∑ k, src.changes g k) := by
  cases src with
  | null => cases hn
  | single d' s' key c =>
    have hsum : ∑ k, (Node.single d' s' key c).changes g k = (g key c).2 := by
      rw [Finset.sum_eq_single key]
      · simp [changes, getNode]
      · intro k _ hne
        simp [changes, getNode, Ne.symm hne]
      · simp
    rw [hsum]
    rfl
  | full d' s' f => rfl

/-- A loop whose rounds merge the child nodes of two nodes, and which leaves no key out that has
an entry, merges the nodes. -/
theorem loop_merged (old : Key → ℤ) (hn : src.hasNodes)
    (hs : (s : ℤ) = ∑ k, old k)
    (hround : ∀ k c, src.getNode k = some c → Round f (fun p => val (k :: p)) (a.ensureNode k)
      (b.ensureNode k) (old k) (g k c))
    (hrest : ∀ k, src.getNode k = none → old k = 0 ∧ merged f (a.under k) (b.under k) = ∅)
    (hf : f false false = false) (hfits : Fits f a b) : Merged f val a b (src.loop d s g) := by
  have hkids : ∀ k, (src.loop d s g).under k = merged f (a.under k) (b.under k) := by
    intro k
    cases hget : src.getNode k with
    | none => rw [under_of_none (by rw [getNode_loop, hget]; rfl), (hrest k hget).2]
    | some c =>
      rw [under_of_some (by rw [getNode_loop, hget]; rfl), (hround k c hget).paths hf]
      rfl
  have hchanges : ∀ k, src.changes g k = ((src.loop d s g).under k).card - old k := by
    intro k
    cases hget : src.getNode k with
    | none =>
      rw [under_of_none (by rw [getNode_loop, hget]; rfl), (hrest k hget).1, changes, hget]
      rfl
    | some c =>
      have hr := hround k c hget
      rw [under_of_some (by rw [getNode_loop, hget]; rfl), ← hr.sound.entries_eq, changes, hget]
      exact hr.change
  have hcount : (s : ℤ) + ∑ k, src.changes g k = ((src.loop d s g).count : ℕ) := by
    rw [hs, Finset.sum_congr rfl fun k _ => hchanges k, Finset.sum_sub_distrib, count,
      Nat.cast_sum, add_sub_cancel]
  refine ⟨⟨?_, ?_⟩, hkids⟩
  · rw [sz_loop hn, hcount, wrap_natCast]
    rw [count, Finset.sum_congr rfl fun k _ => congrArg Finset.card (hkids k)]
    exact hfits
  · intro k c hc
    rw [getNode_loop, Option.map_eq_some_iff] at hc
    obtain ⟨c', hget, rfl⟩ := hc
    exact (hround k c' hget).sound

end Loop

section Grow

variable {node dest : Node α}

theorem growAs_cases (node dest : Node α) : node.growAs dest = dest ∨
    ∃ d s key c, dest = .single d s key c ∧ node.growAs dest = nodeGrow dest := by
  cases dest with
  | null d s => cases node <;> exact .inl rfl
  | full d s f => cases node <;> exact .inl rfl
  | single d s key c =>
    cases node with
    | null d' s' => exact .inr ⟨d, s, key, c, rfl, rfl⟩
    | full d' s' f => exact .inr ⟨d, s, key, c, rfl, rfl⟩
    | single d' s' key' c' =>
      by_cases hkey : key = key'
      · exact .inl (if_pos hkey)
      · exact .inr ⟨d, s, key, c, rfl, if_neg hkey⟩

theorem ensureNode_nodeGrow (nd : Node α) (k : Key) :
    nd.nodeGrow.ensureNode k = nd.ensureNode k := by
  cases nd with
  | null | full => rfl
  | single d s key c =>
    by_cases hkey : k = key
    · subst hkey
      simp [ensureNode, getNode, nodeGrow]
    · simp [ensureNode, getNode, nodeGrow, hkey, Ne.symm hkey]

@[simp]
theorem ensureNode_growAs (node dest : Node α) (k : Key) :
    (node.growAs dest).ensureNode k = dest.ensureNode k := by
  obtain h | ⟨d, s, key, c, -, h⟩ := growAs_cases node dest
  · rw [h]
  · rw [h, ensureNode_nodeGrow]

@[simp]
theorem data_growAs (node dest : Node α) : (node.growAs dest).data = dest.data := by
  obtain h | ⟨d, s, key, c, rfl, h⟩ := growAs_cases node dest
  · rw [h]
  · rw [h]
    rfl

@[simp]
theorem sz_growAs (node dest : Node α) : (node.growAs dest).sz = dest.sz := by
  obtain h | ⟨d, s, key, c, rfl, h⟩ := growAs_cases node dest
  · rw [h]
  · rw [h]
    rfl

@[simp]
theorem hasNodes_growAs (node dest : Node α) : (node.growAs dest).hasNodes = dest.hasNodes := by
  obtain h | ⟨d, s, key, c, rfl, h⟩ := growAs_cases node dest
  · rw [h]
  · rw [h]
    rfl

/-- A key which is left out after growing has no entry in either node. -/
theorem under_of_growAs (hn : dest.hasNodes) (hn' : node.hasNodes) {k : Key}
    (h : (node.growAs dest).getNode k = none) : dest.under k = ∅ ∧ node.under k = ∅ := by
  cases dest with
  | null d s => cases hn
  | full d s f =>
    cases node <;> cases h
  | single d s key c =>
    cases node with
    | null d' s' => cases hn'
    | full d' s' f => cases h
    | single d' s' key' c' =>
      by_cases hkey : key = key'
      · subst hkey
        have hne : key ≠ k := by
          intro heq
          simp [growAs, growFor, getNode, heq] at h
        exact ⟨under_of_none (if_neg hne), under_of_none (if_neg hne)⟩
      · rw [growAs, growFor, if_neg hkey] at h
        cases h

end Grow

theorem Sound.dup_eq (h : Sound val nd) : nd.dup = nd := by
  induction nd generalizing val with
  | null d s =>
    have hsz : s = 0 := h.sz.trans (count_null rfl)
    rw [dup, hsz]
  | single d s key c ih => rw [dup, ih (h.kids (if_pos rfl))]
  | full d s f ih =>
    rw [dup]
    congr
    funext i
    exact ih i (h.kids rfl)

end ThingsDB.Imap.Node
