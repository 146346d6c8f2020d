import Mathlib.Tactic

/-!
# Recursion along a relation without cycles

A function which calls itself for every successor of a node returns if the relation has no
cycle. Two such functions are given with a bound on the depth: one looks for a node, and one
counts the calls. A relation stays without cycles when a node gets new successors from which
the node cannot be reached.
-/

namespace Descent

open Relation List

variable {α : Type*}

def Acyclic (r : α → α → Prop) : Prop := ∀ x, ¬TransGen r x x

variable {call : α → Option Bool} {ys : List α} {x : α} {m : ℕ}

section Acyclic

variable {r r' : α → α → Prop}

theorem Acyclic.mono (h : Acyclic r) (hle : ∀ x y, r' x y → r x y) : Acyclic r' :=
  fun x hx => h x (TransGen.mono hle x x hx)

/-- A node gets new successors, from which it is not reached. -/
theorem Acyclic.insert (h : Acyclic r) {D : α → Prop} (hnew : ∀ u v, r' u v → r u v ∨ u = x ∧ D v)
    (hD : ∀ d, D d → ¬ReflTransGen r d x) : Acyclic r' := by
  -- the nodes from which `x` is not reached are closed, and have only old successors
  have hstay : ∀ u v, ¬ReflTransGen r u x → r' u v → r u v ∧ ¬ReflTransGen r v x := by
    intro u v hu huv
    rcases hnew u v huv with hold | ⟨rfl, -⟩
    · exact ⟨hold, fun hv => hu (ReflTransGen.head hold hv)⟩
    · exact absurd ReflTransGen.refl hu
  have hpath : ∀ u v, ¬ReflTransGen r u x → TransGen r' u v →
      TransGen r u v ∧ ¬ReflTransGen r v x := by
    intro u v hu huv
    induction huv with
    | single huv =>
      obtain ⟨hold, hv⟩ := hstay u _ hu huv
      exact ⟨TransGen.single hold, hv⟩
    | tail _ hvw ih =>
      obtain ⟨hold, hw⟩ := hstay _ _ ih.2 hvw
      exact ⟨ih.1.tail hold, hw⟩
  intro u hu
  by_cases hux : ReflTransGen r u x
  · -- a path back to `u` does not leave through a new successor
    have hback : ∀ v, TransGen r' u v → TransGen r u v ∨ ¬ReflTransGen r v x := by
      intro v huv
      induction huv with
      | single huv =>
        rcases hnew _ _ huv with hold | ⟨-, hd⟩
        · exact Or.inl (TransGen.single hold)
        · exact Or.inr (hD _ hd)
      | tail _ hvw ih =>
        rcases ih with hold | hv
        · rcases hnew _ _ hvw with hstep | ⟨-, hd⟩
          · exact Or.inl (hold.tail hstep)
          · exact Or.inr (hD _ hd)
        · exact Or.inr (hstay _ _ hv hvw).2
    rcases hback u hu with hold | hn
    · exact h u hold
    · exact hn hux
  · exact h u (hpath u u hux hu).1

end Acyclic

section Search

variable (succ : α → List α)

def Step (x y : α) : Prop := y ∈ succ x

/-- The loop over successors, where `call` is the call for one of them. -/
def loop (p : α → Bool) (call : α → Option Bool) : List α → Option Bool
  | [] => some false
  | y :: ys =>
    if p y then some true
    else
      match call y with
      | none => none
      | some true => some true
      | some false => loop p call ys

/-- Is there a node with `p` below a node? -/
def search (p : α → Bool) : ℕ → α → Option Bool
  | 0, _ => none
  | fuel + 1, x => loop p (search p fuel) (succ x)

def sum (call : α → Option ℕ) : List α → Option ℕ
  | [] => some 0
  | y :: ys => (call y).bind fun n => (sum call ys).map (n + ·)

/-- The number of calls for a node and everything below it. -/
def size : ℕ → α → Option ℕ
  | 0, _ => none
  | fuel + 1, x => (sum (size fuel) (succ x)).map (1 + ·)

variable {succ} {p : α → Bool}

theorem loop_eq_some_false :
    loop p call ys = some false ↔ ∀ y ∈ ys, p y = false ∧ call y = some false := by
  induction ys with
  | nil => simp [loop]
  | cons y ys ih =>
    rw [loop, forall_mem_cons, ← ih]
    cases hp : p y with
    | true => simp
    | false =>
      cases hc : call y with
      | none => simp
      | some b => cases b <;> simp

/-- A search which finds nothing has seen all nodes below. -/
theorem not_mem_of_search {fuel : ℕ} {y : α} (h : search succ p fuel x = some false)
    (hxy : TransGen (Step succ) x y) : p y = false := by
  induction fuel generalizing x with
  | zero => cases h
  | succ fuel ih =>
    have hall := loop_eq_some_false.mp h
    rcases TransGen.head'_iff.mp hxy with ⟨z, hz, hzy⟩
    rcases reflTransGen_iff_eq_or_transGen.mp hzy with rfl | hzy
    · exact (hall _ hz).1
    · exact ih (hall z hz).2 hzy

/-- A search does not look at the successors of the nodes it is for. -/
theorem search_congr {succ' : α → List α} (hsucc : ∀ y, p y = false → succ' y = succ y) {fuel : ℕ}
    (hx : p x = false) : search succ' p fuel x = search succ p fuel x := by
  induction fuel generalizing x with
  | zero => rfl
  | succ fuel ih =>
    rw [search, search, hsucc x hx]
    induction succ x with
    | nil => rfl
    | cons y ys ihys =>
      rw [loop, loop, ihys]
      cases hy : p y with
      | true => rfl
      | false => rw [ih hy]

theorem exists_loop_eq (h : ∀ y ∈ ys, ∃ b, call y = some b) : ∃ b, loop p call ys = some b := by
  induction ys with
  | nil => exact ⟨false, rfl⟩
  | cons y ys ih =>
    rw [loop]
    cases p y with
    | true => exact ⟨true, rfl⟩
    | false =>
      obtain ⟨b, hb⟩ := h y mem_cons_self
      rw [hb]
      cases b with
      | true => exact ⟨true, rfl⟩
      | false => exact ih fun z hz => h z (mem_cons_of_mem y hz)

theorem exists_sum_eq {call : α → Option ℕ}
    (h : ∀ y ∈ ys, ∃ n, call y = some n) : ∃ n, sum call ys = some n := by
  induction ys with
  | nil => exact ⟨0, rfl⟩
  | cons y ys ih =>
    obtain ⟨n, hn⟩ := h y mem_cons_self
    obtain ⟨k, hk⟩ := ih fun z hz => h z (mem_cons_of_mem y hz)
    exact ⟨n + k, by rw [sum, hn, hk]; rfl⟩

section

variable (h : Acyclic (Step succ))

include h

theorem Acyclic.ncard_lt [Finite α] {y : α} (hxy : y ∈ succ x) :
    {z | TransGen (Step succ) y z}.ncard < {z | TransGen (Step succ) x z}.ncard := by
  apply Set.ncard_lt_ncard _ (Set.toFinite _)
  have hstep : TransGen (Step succ) x y := TransGen.single hxy
  refine ⟨fun z hz => hstep.trans hz, fun hsub => h y (hsub hstep)⟩

/-- A bounded recursion along the successors, where the bound is the number of nodes. -/
theorem Acyclic.bounded_induction [Finite α] {P : ℕ → α → Prop}
    (hstep : ∀ m x, (∀ y ∈ succ x, P m y) → P (m + 1) x) (hm : Nat.card α ≤ m) (x : α) : P m x := by
  have hbelow : ∀ m x, {z | TransGen (Step succ) x z}.ncard < m → P m x := by
    intro m
    induction m with
    | zero => exact fun x hx => absurd hx (Nat.not_lt_zero _)
    | succ m ih => exact fun x hx => hstep m x fun y hy => ih y (by have := h.ncard_lt hy; omega)
  apply hbelow
  have hproper : {z | TransGen (Step succ) x z} ⊂ Set.univ :=
    (Set.ssubset_univ_iff).mpr fun huniv => h x (Set.eq_univ_iff_forall.mp huniv x)
  have hlt := Set.ncard_lt_ncard hproper (Set.toFinite _)
  rw [Set.ncard_univ] at hlt
  omega

theorem Acyclic.search_returns [Finite α] (p : α → Bool)
    (hm : Nat.card α ≤ m) (x : α) : ∃ b, search succ p m x = some b :=
  h.bounded_induction (fun _ _ ih => exists_loop_eq ih) hm x

theorem Acyclic.size_returns [Finite α]
    (hm : Nat.card α ≤ m) (x : α) : ∃ k, size succ m x = some k := by
  have hstep : ∀ m x, (∀ y ∈ succ x, ∃ k, size succ m y = some k) →
      ∃ k, size succ (m + 1) x = some k := by
    intro m x ih
    obtain ⟨k, hk⟩ := exists_sum_eq ih
    exact ⟨1 + k, by rw [size, hk]; rfl⟩
  exact h.bounded_induction hstep hm x

end

/-- A recursion which needs all successors returns for some bound, exactly if the chains of
successors end and each node on them is one for which it can return. -/
theorem exists_returns_iff {returns : ℕ → α → Prop} {ok : α → Prop} {x : α}
    (hzero : ∀ x, ¬ returns 0 x)
    (hsucc : ∀ m x, returns (m + 1) x ↔ ok x ∧ ∀ y ∈ succ x, returns m y) :
    (∃ m, returns m x) ↔
      Acc (fun y x => Step succ x y) x ∧ ∀ y, ReflTransGen (Step succ) x y → ok y := by
  have hmono : ∀ m x, returns m x → returns (m + 1) x := by
    intro m
    induction m with
    | zero => exact fun x h => absurd h (hzero x)
    | succ m ih =>
      intro x h
      rw [hsucc] at h ⊢
      exact ⟨h.1, fun y hy => ih y (h.2 y hy)⟩
  constructor
  · rintro ⟨m, h⟩
    induction m generalizing x with
    | zero => exact absurd h (hzero x)
    | succ m ih =>
      obtain ⟨hok, hnext⟩ := (hsucc m x).mp h
      refine ⟨Acc.intro x fun y hy => (ih (hnext y hy)).1, fun z hz => ?_⟩
      rcases ReflTransGen.cases_head_iff.mp hz with rfl | ⟨y, hy, hyz⟩
      · exact hok
      · exact (ih (hnext y hy)).2 z hyz
  · rintro ⟨hacc, hok⟩
    induction hacc with
    | intro x _ ih =>
      have hnext : ∀ ys : List α, (∀ y ∈ ys, y ∈ succ x) → ∃ m, ∀ y ∈ ys, returns m y := by
        intro ys hys
        induction ys with
        | nil => exact ⟨0, by simp⟩
        | cons y ys ihys =>
          obtain ⟨m, hm⟩ := ihys fun z hz => hys z (mem_cons_of_mem y hz)
          have hy := hys y mem_cons_self
          obtain ⟨k, hk⟩ := ih y hy fun z hz => hok z (ReflTransGen.head hy hz)
          have hle : ∀ {j l : ℕ} {z : α}, j ≤ l → returns j z → returns l z := by
            intro j l z hjl h
            induction hjl with
            | refl => exact h
            | step _ ihl => exact hmono _ _ ihl
          refine ⟨max m k, fun z hz => ?_⟩
          rcases mem_cons.mp hz with rfl | hz
          · exact hle (le_max_right m k) hk
          · exact hle (le_max_left m k) (hm z hz)
      obtain ⟨m, hm⟩ := hnext (succ x) fun y hy => hy
      exact ⟨m + 1, (hsucc m x).mpr ⟨hok x ReflTransGen.refl, hm⟩⟩

/-- A search below a node with only itself for a successor does not return. -/
theorem search_eq_none (hx : succ x = [x]) (hp : p x = false) (fuel : ℕ) :
    search succ p fuel x = none := by
  induction fuel with
  | zero => rfl
  | succ fuel ih => rw [search, hx, loop, hp, if_neg Bool.false_ne_true, ih]

end Search

end Descent
