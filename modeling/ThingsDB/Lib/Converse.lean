import Mathlib.Logic.Basic
import Mathlib.Tactic.Common

/-!
# Families of relations which are closed under converse

A family of relations is indexed by labels, and a partial involution on the
labels tells which relation is the converse of which. Adding a pair together
with its converse, or removing both, keeps the family closed.
-/

namespace Converse

variable {φ α : Type*} {rel : φ → Option φ} {R : φ → α → α → Prop} {f g : φ} {a : α}
variable {B : α → Prop}

/-- Partners are partners of each other. -/
def Involutive (rel : φ → Option φ) : Prop := ∀ f g, rel f = some g → rel g = some f

theorem involutive_none (φ : Type*) : Involutive fun _ : φ => none := by
  simp [Involutive]

/-- The relation of a label is the converse of the relation of its partner. -/
def Closed (rel : φ → Option φ) (R : φ → α → α → Prop) : Prop :=
  ∀ f g, rel f = some g → ∀ a b, R f a b ↔ R g b a

/-- A pair `(a, b)` with `B b` under the label `f`, or its converse under `g`. -/
def IsPair (f g : φ) (a : α) (B : α → Prop) (h : φ) (x y : α) : Prop :=
  (h = f ∧ x = a ∧ B y) ∨ (h = g ∧ B x ∧ y = a)

def insert (R : φ → α → α → Prop) (f g : φ) (a : α) (B : α → Prop) (h : φ) (x y : α) : Prop :=
  R h x y ∨ IsPair f g a B h x y

def erase (R : φ → α → α → Prop) (f g : φ) (a : α) (B : α → Prop) (h : φ) (x y : α) : Prop :=
  R h x y ∧ ¬IsPair f g a B h x y

theorem isPair_converse (hrel : Involutive rel) (hfg : rel f = some g) {h k : φ}
    (hhk : rel h = some k) {x y : α} (hp : IsPair f g a B h x y) : IsPair f g a B k y x := by
  rcases hp with ⟨rfl, rfl, hy⟩ | ⟨rfl, hx, rfl⟩
  · have hkg : k = g := Option.some.inj (hhk.symm.trans hfg)
    exact Or.inr ⟨hkg, hy, rfl⟩
  · have hkf : k = f := Option.some.inj (hhk.symm.trans (hrel f h hfg))
    exact Or.inl ⟨hkf, rfl, hx⟩

theorem isPair_iff (hrel : Involutive rel) (hfg : rel f = some g) {h k : φ}
    (hhk : rel h = some k) (x y : α) : IsPair f g a B h x y ↔ IsPair f g a B k y x :=
  ⟨isPair_converse hrel hfg hhk, isPair_converse hrel hfg (hrel h k hhk)⟩

theorem Closed.insert (h : Closed rel R) (hrel : Involutive rel) (hfg : rel f = some g)
    (a : α) (B : α → Prop) : Closed rel (insert R f g a B) := by
  intro k l hkl x y
  exact or_congr (h k l hkl x y) (isPair_iff hrel hfg hkl x y)

theorem Closed.erase (h : Closed rel R) (hrel : Involutive rel) (hfg : rel f = some g)
    (a : α) (B : α → Prop) : Closed rel (erase R f g a B) := by
  intro k l hkl x y
  exact and_congr (h k l hkl x y) (not_congr (isPair_iff hrel hfg hkl x y))

/-- Closure only depends on which pairs are related. -/
theorem Closed.congr {R' : φ → α → α → Prop} (h : Closed rel R)
    (hiff : ∀ f a b, R' f a b ↔ R f a b) : Closed rel R' := by
  intro f g hfg a b
  rw [hiff, hiff]
  exact h f g hfg a b

/-- The family of two relations, or of one which is its own converse. -/
def pair [DecidableEq φ] (f g : φ) : φ → Option φ :=
  fun h => if h = f then some g else if h = g then some f else none

theorem pair_involutive [DecidableEq φ] (f g : φ) : Involutive (pair f g) := by
  intro h k hk
  unfold pair at hk ⊢
  split_ifs at hk with hf hg
  · cases hk
    by_cases hgf : g = f
    · simp [hgf, hf]
    · simp [hgf, hf]
  · cases hk
    simp [hg]

theorem pair_left [DecidableEq φ] (f g : φ) : pair f g f = some g := if_pos rfl

theorem closed_pair [DecidableEq φ] : Closed (pair f g) R ↔ ∀ a b, R f a b ↔ R g b a := by
  constructor
  · intro h
    exact h f g (pair_left f g)
  · intro h k l hkl a b
    unfold pair at hkl
    split_ifs at hkl with hf hg
    · cases hkl
      rw [hf]
      exact h a b
    · cases hkl
      rw [hg]
      exact (h b a).symm

end Converse
