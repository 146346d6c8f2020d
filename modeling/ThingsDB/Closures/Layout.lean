import ThingsDB.Closures.Calls

/-!
# The layout of the variable stack

As long as the parameters of a closure are where `stack_pos` says when the closure is called
again, the stack is the sequence of the active calls: each call has the parameters of its
closure, unless a later call has them, and the variables of its body.
-/

namespace ThingsDB.Closures

open Util List

variable {N V : Type} (params : ℕ → List N)

/-- The calls on the stack, where the parameters of the closures in `later` are with later
calls. -/
def blocks : List ℕ → List (Frame V) → List Var
  | _, [] => []
  | later, f :: fs =>
    blocks (f.closure :: later) fs ++
      ((if f.closure ∈ later then [] else block params f.closure) ++ f.locals.map .loc)

/-- No two closures with parameters are active in turn `d`, `c`, `d` when `c` is called. -/
def Calm (active : List ℕ) (c : ℕ) : Prop :=
  ∀ d, d ≠ c → params d ≠ [] → params c ≠ [] → ¬[d, c, d].Sublist active

def closures (fs : List (Frame V)) : List ℕ := fs.map Frame.closure

variable {params} {fs above below : List (Frame V)} {later later' : List ℕ} {c : ℕ}

@[simp] theorem length_block (c : ℕ) : (block params c).length = (params c).length := by
  simp [block]

theorem block_eq_nil (h : params c = []) : block params c = [] := by
  simp [block, h]

/-- Only closures with parameters and with a call on the stack matter. -/
theorem blocks_congr
    (h : ∀ f ∈ fs, params f.closure ≠ [] → (f.closure ∈ later ↔ f.closure ∈ later')) :
    blocks params later fs = blocks params later' fs := by
  induction fs generalizing later later' with
  | nil => rfl
  | cons f fs ih =>
    have hrest :
        blocks params (f.closure :: later) fs = blocks params (f.closure :: later') fs := by
      apply ih
      intro g hg hne
      rw [mem_cons, mem_cons, h g (mem_cons_of_mem f hg) hne]
    have hown : (if f.closure ∈ later then [] else block params f.closure) =
        if f.closure ∈ later' then [] else block params f.closure := by
      by_cases hne : params f.closure = []
      · simp only [block_eq_nil hne, ite_self]
      · simp only [h f mem_cons_self hne]
    rw [blocks, blocks, hrest, hown]

theorem blocks_append :
    blocks params later (above ++ below) =
      blocks params ((closures above).reverse ++ later) below ++ blocks params later above := by
  induction above generalizing later with
  | nil => simp [blocks, closures]
  | cons f above ih => simp [blocks, ih, closures]

theorem blocks_cons_of_notMem (h : c ∉ closures fs) :
    blocks params (c :: later) fs = blocks params later fs := by
  apply blocks_congr
  intro f hf _
  have hne : f.closure ≠ c := fun heq => h (heq ▸ mem_map_of_mem hf)
  rw [mem_cons, or_iff_right hne]

theorem blocks_cons_of_eq_nil (h : params c = []) :
    blocks params (c :: later) fs = blocks params later fs := by
  apply blocks_congr
  intro f _ hf
  have hne : f.closure ≠ c := fun heq => hf (heq ▸ h)
  rw [mem_cons, or_iff_right hne]

/-- The stack with and without the parameters of an active closure. -/
structure Split (params : ℕ → List N) (outer : List Var) (fs below : List (Frame V)) (c : ℕ)
    (a m : List Var) : Prop where
  with_block : outer ++ blocks params [] fs = a ++ block params c ++ m
  without : outer ++ blocks params [c] fs = a ++ m
  pos : a.length = (outer ++ blocks params [c] below).length

/-- The parameters are where the last call of the closure has put them. -/
theorem exists_split {g : Frame V} (outer : List Var) (hcalm : Calm params (closures
    (above ++ g :: below)) g.closure) (habove : g.closure ∉ closures above)
    (hne : params g.closure ≠ []) :
    ∃ a m, Split params outer (above ++ g :: below) below g.closure a m := by
  have hbelow : blocks params (g.closure :: (closures above).reverse) below =
      blocks params [g.closure] below := by
    apply blocks_congr
    intro f hf hfne
    rw [mem_cons, mem_singleton, mem_reverse]
    refine or_iff_left_of_imp fun hmem => ?_
    by_contra hfc
    -- the closure of `f` is active below and above the last call
    refine hcalm f.closure hfc hfne hne ?_
    have hlow : [f.closure].Sublist (closures below) :=
      singleton_sublist.mpr (mem_map_of_mem hf)
    have hhigh : [f.closure].Sublist (closures above) := singleton_sublist.mpr hmem
    simpa [closures] using hhigh.append (hlow.cons_cons g.closure)
  refine ⟨outer ++ blocks params [g.closure] below,
    g.locals.map .loc ++ blocks params [] above, ?_, ?_, rfl⟩
  · rw [blocks_append, append_nil, blocks, hbelow, if_neg (by rwa [mem_reverse])]
    simp only [append_assoc]
  · have hsame : blocks params (g.closure :: ((closures above).reverse ++ [g.closure])) below =
        blocks params (g.closure :: (closures above).reverse) below := by
      apply blocks_congr
      intro f _ _
      simp only [mem_cons, mem_append, not_mem_nil, or_false]
      tauto
    rw [blocks_append, blocks, hsame, hbelow, blocks_cons_of_notMem habove,
      if_pos (mem_append_right _ (mem_singleton_self _))]
    simp only [append_assoc, nil_append]

theorem exists_last (h : c ∈ closures fs) :
    ∃ above g below, fs = above ++ g :: below ∧ g.closure = c ∧ c ∉ closures above := by
  induction fs with
  | nil => cases h
  | cons f fs ih =>
    by_cases hf : f.closure = c
    · exact ⟨[], f, fs, rfl, hf, not_mem_nil⟩
    · have hmem : c ∈ closures fs := by
        rcases mem_cons.mp h with heq | hmem
        · exact absurd heq.symm hf
        · exact hmem
      obtain ⟨above, g, below, rfl, hg, habove⟩ := ih hmem
      refine ⟨f :: above, g, below, rfl, hg, ?_⟩
      simpa [closures] using ⟨fun heq => hf heq.symm, by simpa [closures] using habove⟩

end ThingsDB.Closures
