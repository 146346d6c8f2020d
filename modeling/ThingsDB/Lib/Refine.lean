import Mathlib.Data.List.Basic

/-!
# Machines with answers

A machine is a function from a state and a request to a state and an answer. If one step of a
machine refines one step of another, under a condition on the request, then so do runs.
-/

namespace Refine

variable {σ τ α β : Type*} {f : σ → α → σ × β} {g : τ → α → τ × β}

def run (f : σ → α → σ × β) : σ → List α → σ × List β
  | s, [] => (s, [])
  | s, a :: as =>
    let r := f s a
    let q := run f r.1 as
    (q.1, r.2 :: q.2)

theorem length_run (s : σ) (as : List α) : (run f s as).2.length = as.length := by
  induction as generalizing s with
  | nil => rfl
  | cons a as ih => exact congrArg (· + 1) (ih _)

theorem run_append (s : σ) (as bs : List α) : run f s (as ++ bs) =
    ((run f (run f s as).1 bs).1, (run f s as).2 ++ (run f (run f s as).1 bs).2) := by
  induction as generalizing s with
  | nil => rfl
  | cons a as ih => simp only [List.cons_append, run, ih]

/-- Every request meets a condition in the state it is served in. -/
def Along (f : σ → α → σ × β) (C : σ → α → Prop) : σ → List α → Prop
  | _, [] => True
  | s, a :: as => C s a ∧ Along f C (f s a).1 as

instance decidableAlong {C : σ → α → Prop} [∀ s a, Decidable (C s a)] :
    ∀ (s : σ) (as : List α), Decidable (Along f C s as)
  | _, [] => .isTrue trivial
  | s, a :: as => @instDecidableAnd _ _ _ (decidableAlong (f s a).1 as)

/-- A run answers as the other machine, and the states at the end are related. -/
theorem run_refines {R : σ → τ → Prop} {C : σ → α → Prop}
    (hstep : ∀ s t a, R s t → C s a → R (f s a).1 (g t a).1 ∧ (f s a).2 = (g t a).2)
    {s : σ} {t : τ} {as : List α} (h : R s t) (hc : Along f C s as) :
    R (run f s as).1 (run g t as).1 ∧ (run f s as).2 = (run g t as).2 := by
  induction as generalizing s t with
  | nil => exact ⟨h, rfl⟩
  | cons a as ih =>
    obtain ⟨hnext, hanswer⟩ := hstep s t a h hc.1
    obtain ⟨hend, hanswers⟩ := ih hnext hc.2
    refine ⟨hend, ?_⟩
    simp only [run, hanswer, hanswers]

end Refine
