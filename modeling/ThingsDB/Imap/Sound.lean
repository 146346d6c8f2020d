import ThingsDB.Imap.Node
import ThingsDB.Lib.Paths

/-!
# What a node holds

The entries of a node and below it as a finite set of paths, and the rule for nodes: the data of
a path are given by a function, `sz` is the number of entries below the node, and the array of
nodes is there iff that number is not zero.
-/

namespace ThingsDB.Imap.Node

open Paths

variable {α : Type}

@[simp]
theorem hasNodes_empty : (empty : Node α).hasNodes = false := rfl

@[simp]
theorem data_empty : (empty : Node α).data = none := rfl

@[simp]
theorem data_null (d : Option α) (s : ℕ) : (Node.null d s).data = d := rfl

@[simp]
theorem sz_null (d : Option α) (s : ℕ) : (Node.null d s).sz = s := rfl

section

variable (nd : Node α) (d : Option α)

include nd d

@[simp]
theorem data_withData : (nd.withData d).data = d := by
  cases nd <;> rfl

@[simp]
theorem sz_withData : (nd.withData d).sz = nd.sz := by
  cases nd <;> rfl

@[simp]
theorem hasNodes_withData : (nd.withData d).hasNodes = nd.hasNodes := by
  cases nd <;> rfl

@[simp]
theorem getNode_withData (k : Key) : (nd.withData d).getNode k = nd.getNode k := by
  cases nd <;> rfl

end

variable {nd : Node α} {d : Option α} {k : Key} {s : ℕ}

theorem withData_eq_self (h : nd.data = d) : nd.withData d = nd := by
  subst h
  cases nd <;> rfl

/-- The paths of all entries, that of the node itself included. -/
def paths : Node α → Finset (List Key)
  | .null d _ => if d.isSome then {[]} else ∅
  | .single d _ key c => (if d.isSome then {[]} else ∅) ∪ c.paths.image (key :: ·)
  | .full d _ f =>
    (if d.isSome then {[]} else ∅) ∪ Finset.univ.biUnion fun i => (f i).paths.image (i :: ·)

def under (nd : Node α) (k : Key) : Finset (List Key) := (nd.ensureNode k).paths

variable {c : Node α} {key : Key}

theorem ensureNode_eq_of_some (h : nd.getNode k = some c) : nd.ensureNode k = c := by
  rw [ensureNode, h, Option.getD_some]

theorem ensureNode_single_ne (h : key ≠ k) : (Node.single d s key nd).ensureNode k = empty := by
  simp [ensureNode, getNode, h]

theorem ensureNode_single (key : Key) : (Node.single d s key nd).ensureNode key = nd := by
  simp [ensureNode, getNode]

theorem ensureNode_full {nds : Key → Node α} (k : Key) :
    (Node.full d s nds).ensureNode k = nds k := rfl

theorem key_of_getNode (h : (Node.single d s key nd).getNode k = some c) : key = k := by
  by_contra hne
  rw [getNode, if_neg hne] at h
  cases h

theorem under_of_some (h : nd.getNode k = some c) : nd.under k = c.paths := by
  rw [under, ensureNode_eq_of_some h]

theorem under_of_none (h : nd.getNode k = none) : nd.under k = ∅ := by
  rw [under, ensureNode, h, Option.getD_none]
  rfl

theorem getNode_null (h : nd.hasNodes = false) (k : Key) : nd.getNode k = none := by
  cases nd with
  | null => rfl
  | single | full => cases h

theorem under_null (h : nd.hasNodes = false) (k : Key) : nd.under k = ∅ :=
  under_of_none (getNode_null h k)

@[simp]
theorem under_withData (nd : Node α) (d : Option α) (k : Key) :
    (nd.withData d).under k = nd.under k := by
  rw [under, under, ensureNode, ensureNode, getNode_withData]

@[simp]
theorem nil_mem_paths (nd : Node α) : [] ∈ nd.paths ↔ nd.data.isSome := by
  cases nd with
  | null d s => cases d <;> simp [paths, data]
  | single d s key c => cases d <;> simp [paths, data]
  | full d s f => cases d <;> simp [paths, data]

@[simp]
theorem tails_paths (nd : Node α) (k : Key) : tails nd.paths k = nd.under k := by
  ext p
  rw [mem_tails]
  cases nd with
  | null d s => cases d <;> simp [paths, under, ensureNode, getNode, empty]
  | single d s key c =>
    by_cases hkey : key = k
    · cases d <;> simp [paths, under, ensureNode, getNode, hkey]
    · cases d <;> simp [paths, under, ensureNode, getNode, hkey, empty]
  | full d s f => cases d <;> simp [paths, under, ensureNode, getNode]

theorem cons_mem_paths (nd : Node α) (k : Key) (p : List Key) :
    k :: p ∈ nd.paths ↔ p ∈ nd.under k := by
  rw [← tails_paths, mem_tails]

/-- A path is an entry iff the walk along it finds data. -/
theorem mem_paths (nd : Node α) (p : List Key) : p ∈ nd.paths ↔ (nd.get p).isSome := by
  induction p generalizing nd with
  | nil => rw [nil_mem_paths, get]
  | cons k p ih =>
    rw [cons_mem_paths, get]
    cases hget : nd.getNode k with
    | none => simp [under_of_none hget]
    | some c => rw [under_of_some hget, ih]

@[irreducible]
def count (nd : Node α) : ℕ := ∑ k, (nd.under k).card

theorem card_paths (nd : Node α) :
    nd.paths.card = (if nd.data.isSome then 1 else 0) + nd.count := by
  rw [Paths.card_eq]
  simp only [nil_mem_paths, tails_paths, count]

theorem count_null (h : nd.hasNodes = false) : nd.count = 0 := by
  simp [count, under_null h]

@[simp]
theorem count_withData (nd : Node α) (d : Option α) : (nd.withData d).count = nd.count := by
  simp [count]

theorem paths_ext {nd' : Node α} (hdata : nd.data.isSome = nd'.data.isSome)
    (hunder : ∀ k, nd.under k = nd'.under k) : nd.paths = nd'.paths := by
  apply ext_tails
  · simp [hdata]
  · simpa using hunder

/-- Each path has its data, and the counts and arrays are right from this node downwards. -/
inductive Sound : (List Key → α) → Node α → Prop
  | intro {val : List Key → α} {nd : Node α} (data : ∀ a ∈ nd.data, a = val [])
    (sz : nd.sz = nd.count) (nodes : nd.hasNodes = true ↔ 0 < nd.sz)
    (kids : ∀ k c, nd.getNode k = some c → Sound (fun p => val (k :: p)) c) : Sound val nd

/-- The counts are right, but an array of nodes may be without entries. -/
structure Summed (val : List Key → α) (nd : Node α) : Prop where
  sz : nd.sz = nd.count
  kids : ∀ k c, nd.getNode k = some c → Sound (fun p => val (k :: p)) c

namespace Sound

variable {val : List Key → α} {nd : Node α}

theorem data (h : Sound val nd) : ∀ a ∈ nd.data, a = val [] := by
  cases h with
  | intro data sz nodes kids => exact data

theorem sz (h : Sound val nd) : nd.sz = nd.count := by
  cases h with
  | intro data sz nodes kids => exact sz

theorem nodes (h : Sound val nd) : nd.hasNodes ↔ 0 < nd.sz := by
  cases h with
  | intro data sz nodes kids => exact nodes

theorem kids (h : Sound val nd) {k : Key} {c : Node α} (hc : nd.getNode k = some c) :
    Sound (fun p => val (k :: p)) c := by
  cases h with
  | intro data sz nodes kids => exact kids k c hc

theorem null (h : ∀ a ∈ d, a = val []) : Sound val (.null d 0) := by
  refine ⟨h, (count_null rfl).symm, ?_, ?_⟩
  · simp [hasNodes, Node.sz]
  · intro k c hc
    cases hc

theorem empty : Sound val (empty : Node α) := null (by simp)

section

variable (h : Sound val nd)

include h

theorem ensureNode (k : Key) : Sound (fun p => val (k :: p)) (nd.ensureNode k) := by
  rw [Node.ensureNode]
  cases hget : nd.getNode k with
  | none => exact empty
  | some c => exact h.kids hget

theorem summed : Summed val nd := ⟨h.sz, fun _ _ => h.kids⟩

theorem withData (hd : ∀ a ∈ d, a = val []) : Sound val (nd.withData d) := by
  refine ⟨by simpa using hd, by simpa using h.sz, by simpa using h.nodes, ?_⟩
  intro k c hc
  rw [getNode_withData] at hc
  exact h.kids hc

theorem get_eq (p : List Key) : nd.get p = if p ∈ nd.paths then some (val p) else none := by
  induction p generalizing nd val with
  | nil =>
    rw [get]
    cases hdata : nd.data with
    | none => simp [hdata]
    | some a => simp [hdata, h.data a hdata]
  | cons k p ih =>
    simp only [get, cons_mem_paths]
    cases hget : nd.getNode k with
    | none => simp [under_of_none hget]
    | some c => simpa only [under_of_some hget] using ih (h.kids hget)

theorem sz_pos (hn : nd.hasNodes) : 0 < nd.count := by
  rw [← h.sz]
  exact h.nodes.mp hn

end

end Sound

namespace Summed

variable {val : List Key → α} {nd : Node α}

/-- With an entry below it, or without an array, a node is sound. -/
theorem sound (h : Summed val nd) (hdata : ∀ a ∈ nd.data, a = val [])
    (hnodes : nd.hasNodes → 0 < nd.count) : Sound val nd := by
  refine ⟨hdata, h.sz, ⟨fun hn => ?_, fun hpos => ?_⟩, h.kids⟩
  · rw [h.sz]
    exact hnodes hn
  · cases hn : nd.hasNodes with
    | true => rfl
    | false =>
      rw [h.sz, count_null hn] at hpos
      exact absurd hpos (Nat.lt_irrefl 0)

end Summed

theorem data_freeEmpty (nd : Node α) : nd.freeEmpty.data = nd.data := by
  rw [freeEmpty]
  split
  · rfl
  · rfl

theorem under_eq_empty (h : nd.count = 0) (k : Key) : nd.under k = ∅ := by
  rw [count, Finset.sum_eq_zero_iff] at h
  exact Finset.card_eq_zero.mp (h k (Finset.mem_univ k))

theorem count_pos {p : List Key} (h : k :: p ∈ nd.paths) : 0 < nd.count := by
  rw [Nat.pos_iff_ne_zero]
  intro hzero
  rw [cons_mem_paths, under_eq_empty hzero] at h
  exact absurd h (Finset.notMem_empty p)

theorem under_freeEmpty (h : nd.sz = nd.count) (k : Key) : nd.freeEmpty.under k = nd.under k := by
  rw [freeEmpty]
  by_cases hsz : nd.sz = 0
  · rw [if_pos hsz, under_null rfl, under_eq_empty (h ▸ hsz)]
  · rw [if_neg hsz]

theorem Summed.freeEmpty {val : List Key → α} (h : Summed val nd)
    (hdata : ∀ a ∈ nd.data, a = val []) : Sound val nd.freeEmpty := by
  rw [Node.freeEmpty]
  by_cases hsz : nd.sz = 0
  · rw [if_pos hsz]
    exact Sound.null hdata
  · rw [if_neg hsz]
    exact h.sound hdata fun _ => h.sz ▸ Nat.pos_of_ne_zero hsz

end ThingsDB.Imap.Node
