import Mathlib.Data.List.Basic

/-!
# Runs of a deterministic machine

A machine is a step function which fails on a request it cannot serve. The two
rules at the end lift what one step keeps, and what relates the states around
one step, to whole runs.
-/

namespace Transition

variable {σ α : Type*} {step : σ → α → Option σ}

def run (step : σ → α → Option σ) : σ → List α → Option σ
  | s, [] => some s
  | s, a :: as => (step s a).bind fun t => run step t as

variable {P : σ → Prop} {as : List α} {C : σ → α → Prop} {s : σ}

theorem run_cons_eq_some {u : σ} {a : α} :
    run step s (a :: as) = some u ↔ ∃ t, step s a = some t ∧ run step t as = some u :=
  Option.bind_eq_some_iff

theorem run_map {β : Type*} (f : β → α) (s : σ) (bs : List β) :
    run step s (bs.map f) = run (fun t b => step t (f b)) s bs := by
  induction bs generalizing s with
  | nil => rfl
  | cons b bs ih =>
    simp only [List.map_cons, run]
    exact congrArg _ (funext ih)

/-- Every request of a run meets a condition in the state it is served in. -/
def Along (step : σ → α → Option σ) (C : σ → α → Prop) : σ → List α → Prop
  | _, [] => True
  | s, a :: as => C s a ∧ ∀ t, step s a = some t → Along step C t as

instance decidableAlong {C : σ → α → Prop} [∀ s a, Decidable (C s a)] :
    ∀ (s : σ) (as : List α), Decidable (Along step C s as)
  | _, [] => .isTrue trivial
  | s, a :: as =>
    have : Decidable (∀ t, step s a = some t → Along step C t as) :=
      match step s a with
      | none => .isTrue nofun
      | some u =>
        have := decidableAlong (C := C) u as
        decidable_of_iff (Along step C u as)
          ⟨fun hu _ ht => Option.some.inj ht ▸ hu, fun hall => hall u rfl⟩
    instDecidableAnd

theorem along_true (s : σ) (as : List α) : Along step (fun _ _ => True) s as := by
  induction as generalizing s with
  | nil => trivial
  | cons a as ih => exact ⟨trivial, fun t _ => ih t⟩

/-- What the steps keep which meet a condition. -/
theorem run_invariant_along (hstep : ∀ s a t, P s → C s a → step s a = some t → P t) {t : σ}
    (hs : P s) (hc : Along step C s as) (hrun : run step s as = some t) : P t := by
  induction as generalizing s with
  | nil => exact Option.some.inj hrun ▸ hs
  | cons a as ih =>
    obtain ⟨u, hu, hrest⟩ := run_cons_eq_some.mp hrun
    exact ih (hstep s a u hs hc.1 hu) (hc.2 u hu) hrest

/-- What every step keeps holds at the end of every run. -/
theorem run_invariant (hstep : ∀ s a t, P s → step s a = some t → P t)
    {t : σ} (hs : P s) (hrun : run step s as = some t) : P t :=
  run_invariant_along (fun s a t hs _ => hstep s a t hs) hs (along_true s as) hrun

/-- A machine whose steps succeed under what they keep serves every request which meets a
condition. -/
theorem run_total_along (hstep : ∀ s a, P s → C s a → ∃ t, step s a = some t ∧ P t) (hs : P s)
    (hc : Along step C s as) : ∃ t, run step s as = some t ∧ P t := by
  induction as generalizing s with
  | nil => exact ⟨s, rfl, hs⟩
  | cons a as ih =>
    obtain ⟨u, hu, hpu⟩ := hstep s a hs hc.1
    obtain ⟨t, ht, hpt⟩ := ih hpu (hc.2 u hu)
    exact ⟨t, run_cons_eq_some.mpr ⟨u, hu, ht⟩, hpt⟩

/-- A machine whose steps succeed under what they keep serves every request. -/
theorem run_total (hstep : ∀ s a, P s → ∃ t, step s a = some t ∧ P t) (hs : P s) (as : List α) :
    ∃ t, run step s as = some t ∧ P t :=
  run_total_along (fun s a hs _ => hstep s a hs) hs (along_true s as)

end Transition
