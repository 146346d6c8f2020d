import Mathlib.Tactic

/-!
# Copies which follow a log

A change is made by one of several nodes, which has seen all changes before it, and leaves tasks
in a log. The other nodes apply the tasks in the order of the log, each in its own time. A copy is
compared with the one which is made from the log alone.
-/

namespace Replicated

open List

variable {ν κ ε : Type*}

/-- The log, and for each node how much of it the node has seen and what the node has. -/
structure Net (ν κ ε : Type*) where
  log : List (List ε)
  pos : ν → ℕ
  copy : ν → κ

section Steps

variable [DecidableEq ν] (apply : κ → ε → κ)

/-- A node changes its copy and leaves tasks in the log. -/
def Net.commit (s : Net ν κ ε) (i : ν) (c : κ) (es : List ε) : Net ν κ ε where
  log := s.log ++ [es]
  pos := Function.update s.pos i (s.pos i + 1)
  copy := Function.update s.copy i c

/-- A node applies the tasks of the next change, if there is one. -/
def Net.replay (s : Net ν κ ε) (i : ν) : Net ν κ ε :=
  match s.log[s.pos i]? with
  | none => s
  | some es =>
    { s with
      pos := Function.update s.pos i (s.pos i + 1)
      copy := Function.update s.copy i (es.foldl apply (s.copy i)) }

@[simp] theorem Net.log_replay (s : Net ν κ ε) (i : ν) : (s.replay apply i).log = s.log := by
  unfold Net.replay
  split <;> rfl

/-- A node changes its copy, but leaves no tasks. -/
def Net.touch (s : Net ν κ ε) (i : ν) (c : κ) : Net ν κ ε :=
  { s with copy := Function.update s.copy i c }

end Steps

variable (apply : κ → ε → κ)

def ofLog (start : κ) (log : List (List ε)) : κ := log.foldl (fun c es => es.foldl apply c) start

/-- Each copy is related to the one from the log, and the latter is good after every change. -/
structure InSync (R : κ → κ → Prop) (G : κ → Prop) (start : κ) (s : Net ν κ ε) : Prop where
  pos_le : ∀ i, s.pos i ≤ s.log.length
  follows : ∀ i, R (s.copy i) (ofLog apply start (s.log.take (s.pos i)))
  good : ∀ k, G (ofLog apply start (s.log.take k))

section InSync

variable {apply} {R : κ → κ → Prop} {G : κ → Prop} {start c : κ} {s : Net ν κ ε} {i j : ν}
  {es : List ε}

theorem ofLog_take_succ {log : List (List ε)} {k : ℕ} (h : log[k]? = some es) :
    ofLog apply start (log.take (k + 1)) = es.foldl apply (ofLog apply start (log.take k)) := by
  rw [take_add_one, h, ofLog, foldl_append]
  rfl

theorem ofLog_commit [DecidableEq ν] : ofLog apply start (s.commit i c es).log =
    es.foldl apply (ofLog apply start s.log) := by
  rw [Net.commit, ofLog, foldl_append]
  rfl

theorem foldl_related (hR : ∀ a b e, R a b → R (apply a e) (apply b e)) {a b : κ} (h : R a b)
    (es : List ε) : R (es.foldl apply a) (es.foldl apply b) := by
  induction es generalizing a b with
  | nil => exact h
  | cons e es ih => exact ih (hR a b e h)

theorem inSync_start (hstart : R start start) (hgood : G start) :
    InSync apply R G start (⟨[], fun _ => 0, fun _ => start⟩ : Net ν κ ε) where
  pos_le _ := le_rfl
  follows _ := hstart
  good k := by
    rw [take_nil]
    exact hgood

/-- Two nodes which have seen the same changes are related to the same copy. -/
theorem InSync.agree (h : InSync apply R G start s) (hpos : s.pos i = s.pos j) :
    ∃ r, G r ∧ R (s.copy i) r ∧ R (s.copy j) r := by
  refine ⟨_, h.good (s.pos i), h.follows i, ?_⟩
  rw [hpos]
  exact h.follows j

variable [DecidableEq ν]

theorem InSync.replay (h : InSync apply R G start s)
    (hR : ∀ a b e, R a b → R (apply a e) (apply b e)) (i : ν) :
    InSync apply R G start (s.replay apply i) := by
  unfold Net.replay
  split
  · exact h
  · next es hes =>
    refine ⟨fun j => ?_, fun j => ?_, h.good⟩
    · rcases eq_or_ne j i with rfl | hj
      · simpa using (List.getElem?_eq_some_iff.mp hes).1
      · simpa [hj] using h.pos_le j
    · rcases eq_or_ne j i with rfl | hj
      · simp only [Function.update_self]
        rw [ofLog_take_succ hes]
        exact foldl_related hR (h.follows j) es
      · simpa [hj] using h.follows j

theorem InSync.commit (h : InSync apply R G start s) (hi : s.pos i = s.log.length)
    (hstep : ∀ r, R (s.copy i) r → G r → R c (es.foldl apply r) ∧ G (es.foldl apply r)) :
    InSync apply R G start (s.commit i c es) := by
  have hfollows := h.follows i
  have hgood := h.good s.log.length
  rw [hi] at hfollows
  obtain ⟨hR, hG⟩ := hstep _ hfollows hgood
  rw [take_length] at hR hG
  have hnew : ofLog apply start (s.log ++ [es]) = _ := ofLog_commit (s := s) (i := i) (c := c)
  refine ⟨fun j => ?_, fun j => ?_, fun k => ?_⟩
  · rcases eq_or_ne j i with rfl | hj
    · simp [Net.commit, hi]
    · simpa [Net.commit, hj] using (h.pos_le j).trans (Nat.le_succ _)
  · rcases eq_or_ne j i with rfl | hj
    · simp only [Net.commit, Function.update_self, hi]
      rw [take_of_length_le (by simp), hnew]
      exact hR
    · simp only [Net.commit, Function.update_of_ne hj]
      rw [take_append_of_le_length (h.pos_le j)]
      exact h.follows j
  · simp only [Net.commit]
    rcases Nat.lt_or_ge s.log.length k with hk | hk
    · rw [take_of_length_le (by simpa using hk), hnew]
      exact hG
    · rw [take_append_of_le_length hk]
      exact h.good k

theorem InSync.touch (h : InSync apply R G start s)
    (hstep : ∀ r, R (s.copy i) r → G r → R c r) : InSync apply R G start (s.touch i c) := by
  refine ⟨h.pos_le, fun j => ?_, h.good⟩
  rcases eq_or_ne j i with rfl | hj
  · simpa [Net.touch] using hstep _ (h.follows j) (h.good _)
  · simpa [Net.touch, hj] using h.follows j

end InSync

end Replicated
