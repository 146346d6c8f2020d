import ThingsDB.Typed.Conform

/-!
# Declarations which cover others

The tests on two declarations which `ti_spec_check_mod` and `ti_field_maps_to_field` have in
common, and what they say about the values. `field__maps_to_nested` has the same tests for
the specifications without a condition.
-/

namespace ThingsDB

/-- The other specifications whose values are values of this one. -/
def Base.narrower : Base → List Base
  | raw => [str, utf8, bytes, email, url, tel]
  | str => [utf8, email, url, tel]
  | int => [uint, pint, nint]
  | uint => [pint]
  | number => [float, int, uint, pint, nint]
  | _ => []

variable {E : Env} {kind : ℕ → Kind} {v : Val}

theorem Val.isRaw_of_isStr (h : v.isStr) : v.isRaw := by
  simp only [isStr, decide_eq_true_eq] at h
  rcases h with h | h <;> simp [isRaw, h]

theorem Base.Holds.of_narrower {b o : Base} (h : o ∈ b.narrower) (hv : o.Holds E kind v) :
    b.Holds E kind v := by
  cases b with
  | raw =>
    simp only [narrower, List.mem_cons, List.not_mem_nil, or_false] at h
    rcases h with rfl | rfl | rfl | rfl | rfl | rfl
    · exact Val.isRaw_of_isStr hv
    · exact Val.isRaw_of_isStr hv.1
    · have hb : v.tp = .bytes := hv
      simp [Holds, Val.isRaw, hb]
    all_goals exact Val.isRaw_of_isStr hv.1
  | str =>
    simp only [narrower, List.mem_cons, List.not_mem_nil, or_false] at h
    rcases h with rfl | rfl | rfl | rfl <;> exact hv.1
  | int | uint | number =>
    simp only [narrower, List.mem_cons, List.not_mem_nil, or_false] at h
    rcases h with rfl | rfl | rfl | rfl | rfl <;> simp only [Holds] at hv ⊢
    all_goals first
      | (obtain ⟨i, rfl, hi⟩ := hv; first | exact ⟨i, rfl, Int64.le_of_lt hi⟩ | rfl)
      | simp [Val.isNumber, hv]
  | _ => simp [narrower] at h

namespace Typed

/-- What a specification with its condition allows, without a nested one. -/
def FieldBase.Allows (E : Env) (kind : ℕ → Kind) : FieldBase → Val → Prop
  | .plain b, v => b.Holds E kind v
  | .rematch _ pattern, v => v.isStr ∧ E.regexTest pattern v.data
  | .intRange mi ma, v => ∃ i, v = .int i ∧ mi ≤ i ∧ i ≤ ma
  | .floatRange mi ma, v => ∃ f, v = .float f ∧ ¬ f < mi ∧ ¬ ma < f ∧ ¬ f.isNaN
  | .strRange mi ma, v => v.isStr ∧ mi ≤ v.data.length ∧ v.data.length ≤ ma
  | .utf8Range mi ma, v => v.isStr ∧ E.isUtf8 v.data ∧ mi ≤ v.data.length ∧ v.data.length ≤ ma

def FieldBase.hasNested : FieldBase → Bool
  | .plain .object | .plain .arr | .plain .set => true
  | _ => false

/-- The cases which `ti_spec_check_mod` and `ti_field_maps_to_field` have in common. -/
def FieldBase.covers : FieldBase → FieldBase → Bool
  | .plain b, .plain o => o = b ∨ o ∈ b.narrower
  | .plain b, .rematch _ _ => b = .raw ∨ b = .str
  | .plain b, .strRange _ _ => b = .raw ∨ b = .str
  | .plain b, .utf8Range _ _ => b = .raw ∨ b = .str ∨ b = .utf8
  | .plain b, .intRange mi ma =>
    b = .int ∨ b = .number ∨ b = .uint ∧ 0 ≤ mi ∨ b = .pint ∧ 0 < mi ∨ b = .nint ∧ ma < 0
  | .plain b, .floatRange _ _ => b = .float ∨ b = .number
  | .intRange mi ma, .intRange omi oma => mi ≤ omi ∧ oma ≤ ma
  | .floatRange mi ma, .floatRange omi oma => mi ≤ omi ∧ oma ≤ ma
  | .strRange mi ma, .strRange omi oma => mi ≤ omi ∧ oma ≤ ma
  | .strRange mi ma, .utf8Range omi oma => mi ≤ omi ∧ oma ≤ ma
  | .utf8Range mi ma, .utf8Range omi oma => mi ≤ omi ∧ oma ≤ ma
  | _, _ => false

namespace FieldBase

variable {n o : FieldBase} {b : Base}

theorem eq_of_covers (h : n.hasNested) (hcov : n.covers o) : o = n := by
  unfold hasNested at h
  split at h
  · cases o <;> simp_all [covers, Base.narrower]
  · cases o <;> simp_all [covers, Base.narrower]
  · cases o <;> simp_all [covers, Base.narrower]
  · simp at h

/-- A range is compared with the bounds of the specifications for integers. -/
theorem Allows.of_intRange {mi ma : Int64} (h : (plain b).covers (.intRange mi ma))
    (hv : (intRange mi ma).Allows E kind v) : b.Holds E kind v := by
  obtain ⟨i, rfl, hmi, hma⟩ := hv
  simp only [covers, decide_eq_true_eq] at h
  rcases h with rfl | rfl | ⟨rfl, h⟩ | ⟨rfl, h⟩ | ⟨rfl, h⟩
  · rfl
  · rfl
  · exact ⟨i, rfl, Int64.le_trans h hmi⟩
  · exact ⟨i, rfl, Int64.lt_of_lt_of_le h hmi⟩
  · exact ⟨i, rfl, Int64.lt_of_le_of_lt hma h⟩

theorem Allows.of_covers_plain (h : (plain b).covers o) (hv : o.Allows E kind v) :
    b.Holds E kind v := by
  cases o with
  | plain o =>
    simp only [covers, decide_eq_true_eq] at h
    rcases h with rfl | h
    · exact hv
    · exact Base.Holds.of_narrower h hv
  | intRange mi ma => exact hv.of_intRange h
  | floatRange mi ma =>
    obtain ⟨f, rfl, -⟩ := hv
    simp only [covers, decide_eq_true_eq] at h
    rcases h with rfl | rfl <;> rfl
  | rematch re pattern | strRange mi ma | utf8Range mi ma =>
    simp only [covers, decide_eq_true_eq] at h
    have hstr : v.isStr = true := hv.1
    rcases h with rfl | rfl | rfl <;> first
      | exact Val.isRaw_of_isStr hstr
      | exact hstr
      | exact ⟨hstr, hv.2.1⟩

/-- The values of a declaration are those of one which covers it. -/
theorem Allows.of_covers (h : n.covers o) (hf : ∀ mi ma, n = .floatRange mi ma → v.tp ≠ .float)
    (hv : o.Allows E kind v) : n.Allows E kind v := by
  cases n with
  | plain b => exact hv.of_covers_plain h
  | rematch => simp [covers] at h
  | intRange mi ma =>
    cases o with
    | intRange omi oma =>
      obtain ⟨i, rfl, hmi, hma⟩ := hv
      simp only [covers, decide_eq_true_eq] at h
      exact ⟨i, rfl, Int64.le_trans h.1 hmi, Int64.le_trans hma h.2⟩
    | _ => simp [covers] at h
  | floatRange mi ma =>
    cases o with
    | floatRange omi oma =>
      obtain ⟨f, rfl, -⟩ := hv
      exact absurd rfl (hf mi ma rfl)
    | _ => simp [covers] at h
  | strRange mi ma =>
    cases o with
    | strRange omi oma =>
      simp only [covers, decide_eq_true_eq] at h
      exact ⟨hv.1, h.1.trans hv.2.1, hv.2.2.trans h.2⟩
    | utf8Range omi oma =>
      simp only [covers, decide_eq_true_eq] at h
      exact ⟨hv.1, h.1.trans hv.2.2.1, hv.2.2.2.trans h.2⟩
    | _ => simp [covers] at h
  | utf8Range mi ma =>
    cases o with
    | utf8Range omi oma =>
      simp only [covers, decide_eq_true_eq] at h
      exact ⟨hv.1, hv.2.1, h.1.trans hv.2.2.1, hv.2.2.2.trans h.2⟩
    | _ => simp [covers] at h

end FieldBase

variable {F : Field}

theorem Field.Holds.allows (h : F.Holds E kind v) :
    F.nillable ∧ v.tp = .nil ∨ F.base.Allows E kind v := by
  rcases h with h | h
  · exact .inl h
  · right
    cases hb : F.base with
    | plain b =>
      simp only [hb] at h
      cases b with
      | object =>
        obtain ⟨t, rfl, -⟩ := h
        rfl
      | arr =>
        obtain ⟨flags, vec, rfl, -⟩ := h
        rfl
      | set =>
        obtain ⟨m, rfl, -⟩ := h
        rfl
      | any => trivial
      | _ => exact h
    | _ =>
      simp only [hb] at h
      exact h

/-- Without a nested specification nothing else is asked, except for `any`. -/
theorem Field.holds_of_allows (hnested : F.base.hasNested = false) (hany : F.base ≠ .plain .any)
    (h : F.base.Allows E kind v) : F.Holds E kind v := by
  right
  cases hb : F.base with
  | plain b =>
    rw [hb] at h hnested hany
    cases b with
    | any => exact absurd rfl hany
    | object | arr | set => simp [FieldBase.hasNested] at hnested
    | _ => exact h
  | _ =>
    rw [hb] at h
    exact h

end Typed

end ThingsDB
