import Mathlib.Data.List.Basic
import Mathlib.Data.List.Nodup
import Mathlib.Tactic.Common

/-!
# Maps from keys to things

`util/imap` as it is used for sets: the things in the order in which the map is
walked, each of them once.
-/

namespace ThingsDB.Util

structure Imap where
  things : List ℕ
  nodup : things.Nodup
  deriving DecidableEq

variable {x : ℕ} {m : Imap}
variable {m' : Imap} {t : ℕ}

namespace Imap

instance : Membership ℕ Imap := ⟨fun m t => t ∈ m.things⟩

instance (t : ℕ) (m : Imap) : Decidable (t ∈ m) := inferInstanceAs (Decidable (t ∈ m.things))

theorem mem_def (m : Imap) (t : ℕ) : t ∈ m ↔ t ∈ m.things := Iff.rfl

/-- `imap_create` -/
def empty : Imap := ⟨[], List.nodup_nil⟩

def single (t : ℕ) : Imap := ⟨[t], List.nodup_singleton t⟩

def add (m : Imap) (t : ℕ) : Imap :=
  if h : t ∈ m then m
  else ⟨m.things ++ [t], m.nodup.append (List.nodup_singleton t) (by
    intro x hx hxt
    rw [List.mem_singleton.mp hxt] at hx
    exact h hx)⟩

def pop (m : Imap) (t : ℕ) : Imap := ⟨m.things.filter fun x => x ≠ t, m.nodup.filter _⟩

/-- `imap_intersection_make` -/
def inter (m m' : Imap) : Imap := ⟨m.things.filter fun t => t ∈ m', m.nodup.filter _⟩

/-- `imap_difference_make` -/
def diff (m m' : Imap) : Imap := ⟨m.things.filter fun t => t ∉ m', m.nodup.filter _⟩

/-- `imap_union_make` -/
def union (m m' : Imap) : Imap :=
  ⟨m.things ++ (m'.diff m).things, m.nodup.append (m'.diff m).nodup (by
    intro t ht ht'
    simp only [diff, List.mem_filter, decide_eq_true_eq] at ht'
    exact ht'.2 ht)⟩

/-- `imap_symmdiff_make` -/
def symmdiff (m m' : Imap) : Imap :=
  ⟨(m.diff m').things ++ (m'.diff m).things, (m.diff m').nodup.append (m'.diff m).nodup (by
    intro t ht ht'
    simp only [diff, List.mem_filter, decide_eq_true_eq] at ht ht'
    exact ht'.2 ht.1)⟩

@[simp] theorem not_mem_empty (t : ℕ) : t ∉ empty := List.not_mem_nil

@[simp] theorem mem_single : x ∈ single t ↔ x = t := List.mem_singleton

@[simp] theorem mem_add : x ∈ m.add t ↔ x ∈ m ∨ x = t := by
  unfold add
  split_ifs with h
  · constructor
    · exact Or.inl
    · rintro (hx | rfl)
      · exact hx
      · exact h
  · simp [mem_def]

@[simp] theorem mem_pop : x ∈ m.pop t ↔ x ∈ m ∧ x ≠ t := by
  simp [pop, mem_def]

@[simp] theorem mem_inter : x ∈ m.inter m' ↔ x ∈ m ∧ x ∈ m' := by
  simp [inter, mem_def]

@[simp] theorem mem_diff : x ∈ m.diff m' ↔ x ∈ m ∧ x ∉ m' := by
  simp [diff, mem_def]

@[simp] theorem mem_union : x ∈ m.union m' ↔ x ∈ m ∨ x ∈ m' := by
  have hunion : x ∈ m.union m' ↔ x ∈ m ∨ x ∈ m'.diff m := by
    simp [union, mem_def]
  rw [hunion, mem_diff]
  tauto

end Imap
end ThingsDB.Util
