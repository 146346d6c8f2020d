import ThingsDB.Lists.Ops

/-!
# Assignments by index

The indices of a list and of a slice, and what an assignment to them does when it
succeeds.
-/

namespace ThingsDB.Lists

open Util

variable {E : Env} {kind : ℕ → Kind} {spec : Spec} {l : Varr}
variable {opr : Option OprToken} {n : ℕ} {i : ℤ} {o : Outcome}

theorem numeric_lt {idx : Arg} {i : ℕ} (h : numeric E kind idx n = .ok i) : i < n := by
  unfold numeric at h
  split at h
  · simp at h
  · dsimp only at h
    split_ifs at h
    all_goals
      simp only [Except.ok.injEq] at h
      omega
  · simp at h

theorem sliceStart_mem {n : ℤ} (hn : 0 ≤ n) : 0 ≤ sliceStart n i ∧ sliceStart n i ≤ n := by
  unfold sliceStart
  split_ifs <;> omega

theorem sliceStop_le {n : ℤ} (hn : 0 ≤ n) : sliceStop n i ≤ n := by
  unfold sliceStop
  split_ifs <;> omega

theorem sliceOf_mem {n : ℤ} {start stop step : Option ℤ} {j : ℤ} (hn : 0 ≤ n)
    (h : sliceOf n start stop step = .ok (i, j, 1)) : 0 ≤ i ∧ i ≤ n ∧ j ≤ n := by
  have hstart : 0 ≤ (start.map (sliceStart n)).getD 0 ∧ (start.map (sliceStart n)).getD 0 ≤ n := by
    cases start with
    | none => simpa using hn
    | some k => exact sliceStart_mem hn
  have hstop : (stop.map (sliceStop n)).getD n ≤ n := by
    cases stop with
    | none => simp
    | some k => exact sliceStop_le hn
  unfold sliceOf at h
  split at h
  · simp only [Except.ok.injEq, Prod.mk.injEq] at h
    omega
  · split_ifs at h
    all_goals
      simp only [Except.ok.injEq, Prod.mk.injEq] at h
      omega

theorem readSliceIndices_mem {start stop step : Option Arg} {j : ℤ}
    (h : readSliceIndices E kind n start stop step = .ok (i, j, 1)) : 0 ≤ i ∧ i ≤ n ∧ j ≤ n := by
  unfold readSliceIndices at h
  split_ifs at h with hn
  · simp only [Except.ok.injEq, Prod.mk.injEq] at h
    omega
  · cases hstart : sliceIndex E kind start with
    | error e => simp [hstart, bind, Except.bind] at h
    | ok start =>
      cases hstop : sliceIndex E kind stop with
      | error e => simp [hstart, hstop, bind, Except.bind] at h
      | ok stop =>
        cases hstep : sliceIndex E kind step with
        | error e => simp [hstart, hstop, hstep, bind, Except.bind] at h
        | ok step =>
          simp only [hstart, hstop, hstep, bind, Except.bind] at h
          exact sliceOf_mem (by simp) h

/-- What an assignment by index can do: fail, put what `ti_val_varr_prepare` makes of the value,
or put the result of the operator as it is. -/
theorem arrayAss_cases {idx val : Arg} (h : arrayAss E kind spec l idx opr val = some o) :
    (∃ e, o = fail l e ∧ ∀ op i v, opr = some op → numeric E kind idx l.vec.length = .ok i →
      val = .ok v → Opr.aToB E (fun t => (kind t).type?) (fun _ _ => none) (l.vec.getD i .nil) v
        op = some (.error e)) ∨
    ∃ i v, numeric E kind idx l.vec.length = .ok i ∧ val = .ok v ∧
      ((opr = none ∧ ∃ r, prepare E kind spec l.flags v = .ok r ∧
          o = assigned ⟨r.1, l.vec.set i r.2⟩ i r.2) ∨
        ∃ op x, opr = some op ∧ Opr.aToB E (fun t => (kind t).type?) (fun _ _ => none)
          (l.vec.getD i .nil) v op = some (.ok x) ∧
            o = assigned ⟨l.flags, l.vec.set i x⟩ i x) := by
  unfold arrayAss at h
  cases hi : numeric E kind idx l.vec.length with
  | error e => exact .inl ⟨e, by simpa [hi] using h.symm, nofun⟩
  | ok i =>
    cases val with
    | error e => exact .inl ⟨e, by simpa [hi] using h.symm, nofun⟩
    | ok v =>
      cases opr with
      | none =>
        cases hp : prepare E kind spec l.flags v with
        | error e => exact .inl ⟨e, by simpa [hi, varrSet, hp, Except.map] using h.symm, nofun⟩
        | ok r =>
          refine .inr ⟨i, v, rfl, rfl, .inl ⟨rfl, r, hp, ?_⟩⟩
          simpa [hi, varrSet, hp, Except.map, numeric_lt hi] using h.symm
      | some op =>
        simp only [hi, Option.map_eq_some_iff] at h
        obtain ⟨x, hx, rfl⟩ := h
        cases x with
        | error e =>
          refine .inl ⟨e, rfl, ?_⟩
          rintro _ _ _ ⟨⟩ ⟨⟩ ⟨⟩
          exact hx
        | ok x => exact .inr ⟨i, v, rfl, rfl, .inr ⟨op, x, rfl, hx, rfl⟩⟩

theorem argInt_ok {name doc : String} {a : Arg} {i : Int64} :
    argInt E kind name doc n a = .ok i ↔ a = .ok (.int i) := by
  unfold argInt
  split <;> simp_all

/-- What `splice` can do: fail, or replace elements when its first arguments are integers. -/
theorem splice_cases {args : List Arg} (h : splice E kind spec l args = some o) :
    (∃ e, o = fail l e ∧ ∀ i c rest, args ≠ .ok (.int i) :: .ok (.int c) :: rest) ∨
    ∃ i c rest i' c', args = .ok (.int i) :: .ok (.int c) :: rest ∧
      spliceArgs l.vec.length i.toInt c.toInt = some (i', c') ∧
        o = spliceFrom E kind spec l i' c' rest := by
  match args with
  | [] | [_] => exact .inl ⟨_, by simpa [splice] using h.symm, nofun⟩
  | a₁ :: a₂ :: args =>
    simp only [splice] at h
    cases h₁ : argInt E kind "splice" (docSee "data-types/list/splice") 1 a₁ with
    | error e =>
      refine .inl ⟨e, by simpa [h₁] using h.symm, ?_⟩
      rintro i c rest ⟨⟩
      simp [argInt_ok.mpr rfl] at h₁
    | ok i =>
      obtain rfl := argInt_ok.mp h₁
      cases h₂ : argInt E kind "splice" (docSee "data-types/list/splice") 2 a₂ with
      | error e =>
        refine .inl ⟨e, by simpa [h₁, h₂] using h.symm, ?_⟩
        rintro i c rest ⟨⟩
        simp [argInt_ok.mpr rfl] at h₂
      | ok c =>
        obtain rfl := argInt_ok.mp h₂
        simp only [h₁, h₂, Option.map_eq_some_iff] at h
        obtain ⟨⟨i', c'⟩, hic, rfl⟩ := h
        exact .inr ⟨i, c, args, i', c', rfl, hic, rfl⟩

/-- What a slice assignment can do: not be defined, fail, or replace the elements of the slice. -/
theorem sliceAss_cases (E : Env) (kind : ℕ → Kind) (l : Varr) (start stop step : Option Arg)
    (opr : Option OprToken) (rhs : Rhs) :
    (∃ e, sliceAss E kind l start stop step opr rhs = some (fail l e) ∧
      ∀ i j flags vec, opr = none → readSliceIndices E kind l.vec.length start stop step =
        .ok (i, j, 1) → rhs.arg l ≠ .ok (.arr flags vec)) ∨
    ∃ i c j flags vec, opr = none ∧ readSliceIndices E kind l.vec.length start stop step =
        .ok ((i : ℕ), j, 1) ∧ i + c ≤ l.vec.length ∧ rhs.arg l = .ok (.arr flags vec) ∧
      sliceAss E kind l start stop step opr rhs = if rhs.overlaps i vec.length then none
        else some ⟨⟨l.flags, l.vec.take i ++ vec ++ l.vec.drop (i + c)⟩, .ok .nil,
          some (.splice i c vec)⟩ := by
  unfold sliceAss
  cases opr with
  | some opr => exact .inl ⟨_, rfl, nofun⟩
  | none =>
    cases hs : readSliceIndices E kind l.vec.length start stop step with
    | error e => exact .inl ⟨e, rfl, nofun⟩
    | ok ijk =>
      obtain ⟨i, j, k⟩ := ijk
      by_cases hk : k ≠ 1
      · refine .inl ⟨_, if_pos hk, ?_⟩
        rintro _ _ _ _ - ⟨⟩
        exact absurd rfl hk
      · obtain rfl := not_not.mp hk
        obtain ⟨hi₀, hi, hj⟩ := readSliceIndices_mem hs
        lift i to ℕ using hi₀
        have hic : i + (j - i).toNat ≤ l.vec.length := by omega
        simp only [ne_eq, not_true_eq_false, if_false, Int.toNat_natCast]
        cases ha : rhs.arg l with
        | error e => exact .inl ⟨e, rfl, nofun⟩
        | ok v =>
          cases v with
          | arr flags vec =>
            have htake : (l.vec.take i).length = i := by simp; omega
            refine .inr ⟨i, (j - i).toNat, j, flags, vec, trivial, rfl, hic, rfl, ?_⟩
            simp only [Slots.read_replace vec hic]
            simp [addSplice, htake]
          | _ => exact .inl ⟨_, rfl, nofun⟩

end ThingsDB.Lists
