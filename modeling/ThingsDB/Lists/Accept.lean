import ThingsDB.Lists.Varr

/-!
# What a list accepts

The two checks of `ti_val_varr_prepare` together, and what is in the list afterwards.
Values are compared up to their representation, which is not the same on all nodes:
a name is sent as a string, and arrays get their flags from what is put in them.
-/

namespace ThingsDB

namespace Val

mutual

/-- A value without its representation. -/
def strip : Val → Val
  | arr _ vec => arr ⟨true, false, false⟩ (stripAll vec)
  | name d => str d
  | v => v

def stripAll : List Val → List Val
  | [] => []
  | v :: vs => v.strip :: stripAll vs

end

theorem stripAll_eq_map (vec : List Val) : stripAll vec = vec.map strip := by
  induction vec with
  | nil => rfl
  | cons v vec ih => rw [stripAll, ih, List.map_cons]

end Val

namespace Lists

variable {E : Env} {kind : ℕ → Kind} {spec : Spec} {flags flags' : ArrFlags} {v w : Val}

def Elem (v : Val) : Prop := v.tp ≠ .set ∧ v.tp ≠ .future ∧ v.tp ≠ .module

/-- The specification allows the value, or takes it for another one. -/
def Accepts (E : Env) (kind : ℕ → Kind) (spec : Spec) (v : Val) : Prop :=
  spec.Holds E kind v ∨ spec.Confused v

theorem isSpec_of_confused (h : spec.Confused v) : v.isSpec E kind spec := by
  unfold Val.isSpec
  split_ifs with h₁ h₂
  · rfl
  · exact h.2.1
  · exact absurd (Spec.le_code.mpr (.inl h.1)) h₂
  · exact absurd (Spec.le_code.mpr (.inl h.1)) h₂

theorem accepts_of_isSpec (h : v.isSpec E kind spec) : Accepts E kind spec v := by
  by_cases hc : spec.Confused v
  · exact .inr hc
  · exact .inl ((holds_iff_of_isSpec h).mpr hc)

theorem nestedSpecErr_eq_none : nestedSpecErr E kind spec v = none ↔ spec.Holds E kind v := by
  rw [← checkNestedVal_eq_success, nestedSpecErr]
  cases checkNestedVal E kind spec v <;> simp

/-- What `ti_val_varr_prepare` does, when it succeeds. -/
theorem prepare_cases {r : ArrFlags × Val} (h : prepare E kind spec flags v = .ok r) :
    (v.isSpec E kind spec ∧ r = toArr flags v) ∨
      (v.isSpec E kind spec = false ∧ spec.Holds E kind v ∧ r = (flags, v)) := by
  unfold prepare at h
  split_ifs at h with hs
  · exact .inl ⟨hs, by simpa using h.symm⟩
  · cases he : nestedSpecErr E kind spec v with
    | some e => simp [he] at h
    | none =>
      simp only [he, Except.ok.injEq] at h
      exact .inr ⟨by simpa using hs, nestedSpecErr_eq_none.mp he, h.symm⟩

variable (flags) in
theorem prepare_isOk : (∃ r, prepare E kind spec flags v = .ok r) ↔ Accepts E kind spec v := by
  constructor
  · rintro ⟨r, hr⟩
    rcases prepare_cases hr with ⟨hs, -⟩ | ⟨-, hh, -⟩
    · exact accepts_of_isSpec hs
    · exact .inl hh
  · intro h
    unfold prepare
    split_ifs with hs
    · exact ⟨_, rfl⟩
    · have hh : spec.Holds E kind v := by
        rcases h with hh | hc
        · exact hh
        · exact absurd (isSpec_of_confused hc) hs
      rw [nestedSpecErr_eq_none.mpr hh]
      exact ⟨_, rfl⟩

theorem strip_toArr (h : Elem v) : (toArr flags v).2.strip = v.strip := by
  cases v <;> simp_all [toArr, Elem, Val.tp, Val.strip]

theorem elem_toArr : Elem (toArr flags v).2 := by
  cases v <;> simp [toArr, Elem, Val.tp]

theorem holds_name {d : Raw} {b : Base} : b.Holds E kind (.name d) ↔ b.Holds E kind (.str d) := by
  cases b <;> simp [Base.Holds, Val.tp, Val.isStr, Val.isRaw, Val.isNumber, Val.isDatetimeStrict,
    Val.isTimeval, Val.data]

theorem holds_arr {vec vec' : List Val} {b : Base} :
    b.Holds E kind (.arr flags vec) ↔ b.Holds E kind (.arr flags' vec') := by
  cases b <;> simp [Base.Holds, Val.tp, Val.isStr, Val.isRaw, Val.isNumber, Val.isDatetimeStrict,
    Val.isTimeval]

theorem accepts_strip : Accepts E kind spec v.strip ↔ Accepts E kind spec v := by
  cases v with
  | name d => simp [Val.strip, Accepts, Spec.Holds, Spec.Confused, holds_name, Val.tp, Val.enumEq]
  | arr flags vec =>
    have h : spec.base.Holds E kind (.arr flags vec) ↔
        spec.base.Holds E kind (.arr ⟨true, false, false⟩ (Val.stripAll vec)) := holds_arr
    simp [Val.strip, Accepts, Spec.Holds, Spec.Confused, h, Val.tp, Val.enumEq]
  | _ => simp [Val.strip]

theorem accepts_congr (h : v.strip = w.strip) : Accepts E kind spec v ↔ Accepts E kind spec w := by
  rw [← accepts_strip, h, accepts_strip]

theorem elem_congr (h : v.strip = w.strip) : Elem v ↔ Elem w := by
  have hstrip : ∀ v : Val, Elem v.strip ↔ Elem v := by
    intro v
    cases v <;> simp [Val.strip, Elem, Val.tp]
  rw [← hstrip, h, hstrip]

/-- Only `any` allows what cannot be an element, apart from sets for which there is no
nested specification. -/
theorem elem_of_accepts (hset : spec.base ≠ .set) (hany : spec ≠ .any)
    (h : Accepts E kind spec v) : Elem v := by
  have hb : spec.base ≠ .any := fun hb => hany (Spec.eq_any_of_base hb)
  rcases h with (⟨-, hv⟩ | hv) | hc
  · simp [Elem, hv]
  · cases v with
    | set | future | module =>
      cases hbase : spec.base <;>
        simp_all [Base.Holds, Val.tp, Val.isStr, Val.isRaw, Val.isNumber, Val.isDatetimeStrict,
          Val.isTimeval]
    | _ => simp [Elem, Val.tp]
  · obtain ⟨e, -, name, x, rfl⟩ := Val.enumEq_iff.mp hc.2.1
    simp [Elem, Val.tp]

end Lists
end ThingsDB
