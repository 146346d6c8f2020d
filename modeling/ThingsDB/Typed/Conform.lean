import ThingsDB.Relations.Assign
import ThingsDB.Typed.Assign

/-!
# Values which conform

What it means that all values conform to their declarations, and that
`ti_field_make_assignable` gives a value which does, while the values it changes
elsewhere still do.
-/

namespace ThingsDB.Typed

open Util Relations Function

variable {φ : Type} {E : Env} {T : Types φ} {c c' : Collection φ} {f g : φ} {F : Field}
variable {kind kind' : ℕ → Kind} {v : Val} {m : Imap} {t p : ℕ}

/-- Every value of an instance is one of its field, and every property of any other thing
one of the restriction. -/
structure Conforms (E : Env) (T : Types φ) (c : Collection φ) : Prop where
  typed : ∀ f a, c.kind a = .instance (T.field f).type → (T.field f).Holds E c.kind (c.vals f a)
  restricted : ∀ a spec, c.kind a = .object spec → ∀ kv ∈ c.props a, spec.Holds E c.kind kv.2

variable {vec : List Val} {flags : ArrFlags} {s : Store φ} {i : TypeId}

section Specs

variable {spec : Spec}

/-- A specification depends on the instances of its type only. -/
theorem base_holds_mono {b : Base}
    (h : ∀ t i, b = .typeId i → kind t = .instance i → kind' t = .instance i)
    (hv : b.Holds E kind v) : b.Holds E kind' v := by
  cases b with
  | typeId i =>
    obtain ⟨t, rfl, ht⟩ := hv
    exact ⟨t, rfl, h t i rfl ht⟩
  | _ => exact hv

theorem holds_mono (h : ∀ t i, spec.base = .typeId i → kind t = .instance i → kind' t = .instance i)
    (hv : spec.Holds E kind v) : spec.Holds E kind' v := by
  rcases hv with hv | hv
  · exact .inl hv
  · exact .inr (base_holds_mono h hv)

theorem eq_typeId_of_code (h : spec.code = i) : spec = ⟨.typeId i, false, by simp⟩ := by
  have hi := i.isLt
  have hn : spec.nillable = false := Spec.not_nillable_of_code (by omega)
  rw [Spec.code_of_not_nillable hn] at h
  cases spec with
  | mk base nillable hany =>
    obtain rfl : nillable = false := hn
    rcases Base.code_le.mp (show base.code ≤ 0x4000 by simp only at h; omega) with rfl | ⟨j, rfl⟩
    · simp only [Base.code] at h
      omega
    · obtain rfl : j = i := Fin.ext h
      rfl

theorem holds_typeId :
    Spec.Holds E kind ⟨.typeId i, false, by simp⟩ (.thing t) ↔ kind t = .instance i := by
  simp [Spec.Holds, Base.Holds]

theorem holds_of_typeId (h : (kind t).typeId = spec.code) : spec.Holds E kind (.thing t) := by
  cases hk : kind t with
  | «instance» i =>
    rw [hk] at h
    rw [eq_typeId_of_code (i := i) h.symm, holds_typeId]
    exact hk
  | object s =>
    rw [hk] at h
    simp only [Kind.typeId] at h
    have hn : spec.nillable = false := Spec.not_nillable_of_code (by omega)
    rw [Spec.code_of_not_nillable hn] at h
    right
    cases hb : spec.base with
    | object => rfl
    | typeId i =>
      have := i.isLt
      simp only [hb, Base.code] at h
      omega
    | _ =>
      simp only [hb, Base.code] at h
      omega

@[simp] theorem holds_any : Spec.any.Holds E kind v := by
  simp [Spec.Holds, Spec.any, Base.Holds]

end Specs

theorem holds_arr_iff :
    F.Holds E kind (.arr flags vec) ↔ F.base = .plain .any ∨
      F.base = .plain .arr ∧ ∀ x ∈ vec, F.nested.Holds E kind x := by
  unfold Field.Holds
  cases hb : F.base with
  | plain b => cases b <;> simp [Base.Holds, Val.tp, Val.isRaw, Val.isStr, Val.isNumber,
      Val.isDatetimeStrict, Val.isTimeval]
  | _ => simp [Val.tp, Val.isStr]

theorem holds_set_iff : F.Holds E kind (.set m) ↔ F.base = .plain .any ∨
    F.base = .plain .set ∧ ∀ x ∈ m, F.nested.Holds E kind (.thing x) := by
  unfold Field.Holds
  cases hb : F.base with
  | plain b => cases b <;> simp [Base.Holds, Val.tp, Val.isRaw, Val.isStr, Val.isNumber,
      Val.isDatetimeStrict, Val.isTimeval, Imap.mem_def]
  | _ => simp [Val.tp, Val.isStr]

theorem nested_of_any (h : F.base = .plain .any) : F.nested = .any := by
  apply F.nested_any <;> simp [h]

namespace Field.Holds

/-- The elements of a list are those of the nested specification, also for `any`. -/
theorem of_arr (h : F.Holds E kind (.arr flags vec)) : ∀ x ∈ vec, F.nested.Holds E kind x := by
  rcases holds_arr_iff.mp h with hany | ⟨-, hvec⟩
  · simp [nested_of_any hany]
  · exact hvec

theorem of_set (h : F.Holds E kind (.set m)) : ∀ x ∈ m, F.nested.Holds E kind (.thing x) := by
  rcases holds_set_iff.mp h with hany | ⟨-, hm⟩
  · simp [nested_of_any hany]
  · exact hm

theorem mono (h : F.Holds E kind v)
    (hkind : ∀ t i, F.Uses i → kind t = .instance i → kind' t = .instance i)
    (hobj : ∀ t, F.nested ≠ .any → kind t = .object F.nested → kind' t = .object F.nested) :
    F.Holds E kind' v := by
  have hnested : ∀ {x}, F.nested.Holds E kind x → F.nested.Holds E kind' x :=
    fun hx => holds_mono (fun t i hi => hkind t i (.inr hi)) hx
  rcases h with h | h
  · exact .inl h
  · right
    cases hb : F.base with
    | plain b =>
      simp only [hb] at h
      cases b with
      | object =>
        obtain ⟨t, rfl, hany | ht⟩ := h
        · exact ⟨t, rfl, .inl hany⟩
        · by_cases hany : F.nested = .any
          · exact ⟨t, rfl, .inl hany⟩
          · exact ⟨t, rfl, .inr (hobj t hany ht)⟩
      | arr =>
        obtain ⟨flags, vec, rfl, hvec⟩ := h
        exact ⟨flags, vec, rfl, fun x hx => hnested (hvec x hx)⟩
      | set =>
        obtain ⟨m, rfl, hm⟩ := h
        exact ⟨m, rfl, fun x hx => hnested (hm x hx)⟩
      | typeId i => exact base_holds_mono (fun t j hj => hkind t j (.inl (by rw [hb, hj]))) h
      | _ => exact h
    | _ =>
      simp only [hb] at h
      exact h

end Field.Holds

theorem valueError_eq_none {r : SpecRval} : valueError E kind F v r = none ↔ r = .success := by
  cases r <;> simp [valueError]

/-- The checks which look at the value only, for a value which needs no other check. -/
theorem holds_of_valueErr (h : valueErr E kind F v = none)
    (hany : F.base = .plain .any → v.tp ≠ .future ∧ v.tp ≠ .module)
    (hobj : F.base = .plain .object → v.tp ≠ .thing) (harr : F.base = .plain .arr → v.tp ≠ .arr)
    (hset : F.base = .plain .set → v.tp ≠ .set) : F.Holds E kind v := by
  right
  unfold valueErr at h
  cases hb : F.base with
  | plain b =>
    simp only [hb, valueError_eq_none, checkNestedBase_eq_success] at h
    cases b with
    | any => exact hany hb
    | object => exact absurd h (hobj hb)
    | arr => exact absurd h (harr hb)
    | set => exact absurd h (hset hb)
    | _ => exact h
  | rematch re pattern =>
    simp only [hb] at h
    split_ifs at h with hs hr
    · cases re <;> simp [reError, valueError] at h
    · simp_all
  | intRange mi ma =>
    simp only [hb] at h
    cases v with
    | int i =>
      simp only at h
      split_ifs at h with hr
      simp only [not_or, Int64.not_lt] at hr
      exact ⟨i, rfl, hr⟩
    | _ => simp at h
  | floatRange mi ma =>
    simp only [hb] at h
    cases v with
    | float x =>
      simp only at h
      split_ifs at h with hr hn
      rw [not_or] at hr
      exact ⟨x, rfl, hr.1, hr.2, hn⟩
    | _ => simp at h
  | strRange mi ma =>
    simp only [hb] at h
    split_ifs at h with hs hr
    simp_all
  | utf8Range mi ma =>
    simp only [hb] at h
    split_ifs at h with hs hu hr
    · simp [valueError] at h
    · simp_all

theorem nestedErr_eq_none {what items : String} {vals : List Val} :
    nestedErr E kind F what items vals = none ↔ ∀ x ∈ vals, F.nested.Holds E kind x := by
  have hone : ∀ r, nestedError E F what items r = none ↔ r = .success := by
    intro r
    cases r <;> simp [nestedError]
  simp [nestedErr, List.findSome?_eq_none_iff, hone, checkNestedVal_eq_success]

theorem setErr_eq_none : setErr E kind F m = none ↔ ∀ x ∈ m, (kind x).typeId = F.nested.code := by
  simp [setErr, Imap.mem_def]

section Related

theorem target_of_rel (hrel : T.rel f = some g) :
    (T.schema E).target f = some ((T.field g).type : ℕ) := by
  rcases T.rel_spec f g hrel with ⟨hb, -, hn⟩ | ⟨hb, -⟩
  · simp [Types.schema, Types.target, hb, hn, Spec.any, Spec.code, Base.code]
  · simp [Types.schema, Types.target, hb]

theorem holds_ofImap (hrel : T.rel f = some g) (hm : ∀ x ∈ m, kind x = .instance (T.field g).type) :
    (T.field f).Holds E kind (ofImap (T.isSet f) m) := by
  rcases T.rel_spec f g hrel with ⟨hb, -, hn⟩ | ⟨hb, hn⟩
  · simp only [Types.isSet, hb, ofImap, if_true]
    apply holds_set_iff.mpr
    rw [hn]
    exact .inr ⟨hb, fun x hx => holds_typeId.mpr (hm x hx)⟩
  · simp only [Types.isSet, hb, ofImap, Bool.false_eq_true, if_false]
    cases hs : m.things with
    | nil => exact .inl ⟨hn, rfl⟩
    | cons x xs =>
      right
      simp only [hb]
      exact ⟨x, rfl, hm x (by simp [Imap.mem_def, hs])⟩

theorem kind_of_mem_view (h : Conforms E T c) (hrel : T.rel f = some g) {a x : ℕ}
    (ha : c.kind a = .instance (T.field f).type) (hx : x ∈ view c f a) :
    c.kind x = .instance (T.field g).type := by
  have hv := h.typed f a ha
  rcases T.rel_spec f g hrel with ⟨hb, hnil, hn⟩ | ⟨hb, -⟩
  · obtain ⟨m, hm, -⟩ : ∃ m, c.vals f a = .set m ∧ _ := by
      simpa [Field.Holds, hb, hnil] using hv
    rw [hm] at hv
    rw [← holds_typeId (E := E), ← hn]
    apply hv.of_set
    simpa [view, hm] using hx
  · simp only [Field.Holds, hb, Base.Holds] at hv
    cases hval : c.vals f a with
    | thing t =>
      obtain rfl : x = t := by simpa [view, hval] using hx
      simpa [hval, Val.tp] using hv
    | nil => simp [view, hval] at hx
    | _ => simp [hval, Val.tp] at hv

/-- The values still conform when related properties have changed, and nothing but things
of the right type is added. -/
theorem Conforms.restore (h : Conforms E T c)
    (hsame : ∀ k, T.rel k = none → s k = view c k)
    (hmem : ∀ k l, T.rel k = some l → ∀ a, ∀ x ∈ s k a,
      x ∈ view c k a ∨ c.kind x = .instance (T.field l).type) :
    Conforms E T { c with vals := restore c T s } := by
  constructor
  · intro k a ha
    simp only [Typed.restore]
    split_ifs with heq
    · exact h.typed k a ha
    · cases hrel : T.rel k with
      | none => exact absurd (congrFun (hsame k hrel) a) heq
      | some l =>
        apply holds_ofImap hrel
        intro x hx
        rcases hmem k l hrel a x hx with hx | hx
        · exact kind_of_mem_view h hrel ha hx
        · exact hx
  · exact h.restricted

/-- The same, by what the functions of `Relations` make sure of. -/
theorem Conforms.restore_of_adds (h : Conforms E T c) (hrel : T.rel f = some g)
    (hp : c.kind p = .instance (T.field f).type) (hadds : Adds (view c) s g p)
    (hother : ∀ k, k ≠ f → T.rel f ≠ some k → s k = view c k) :
    Conforms E T { c with vals := Typed.restore c T s } := by
  apply h.restore
  · intro k hk
    apply hother k
    · rintro rfl
      simp [hk] at hrel
    · intro hfk
      simp [T.rel_involutive f k hfk] at hk
  · intro k l hkl a x hx
    rcases hadds k a x hx with hx | ⟨rfl, rfl⟩
    · exact .inl hx
    · cases hkl.symm.trans (T.rel_involutive f k hrel)
      exact .inr hp

end Related

section Assignable

variable {r : Rval φ}

/-- A set or list which belongs to a field conforms to the field. -/
theorem spec_eq (h : Conforms E T c) : r.spec T c = .any ∨
    ∃ F : Field, r.spec T c = F.nested ∧ F.Holds E c.kind (r.get c) := by
  unfold Rval.spec
  cases r with
  | val | key => exact .inl rfl
  | prop p f =>
    simp only
    split_ifs with hp
    · exact .inr ⟨_, rfl, h.typed f p hp⟩
    · exact .inl rfl

theorem spec_of_set (h : Conforms E T c) (hr : r.get c = .set m) :
    ∀ x ∈ m, (r.spec T c).Holds E c.kind (.thing x) := by
  rcases spec_eq h (r := r) with hs | ⟨F, hs, hF⟩
  · simp [hs]
  · rw [hs]
    exact (hr ▸ hF).of_set

theorem spec_of_arr (h : Conforms E T c)
    (hr : r.get c = .arr flags vec) : ∀ x ∈ vec, (r.spec T c).Holds E c.kind x := by
  rcases spec_eq h (r := r) with hs | ⟨F, hs, hF⟩
  · simp [hs]
  · rw [hs]
    exact (hr ▸ hF).of_arr

theorem checked_ok {o : Option Ex} {w : Val} (h : checked c w o = .ok (c', v)) :
    o = none ∧ c' = c ∧ v = w := by
  cases o with
  | some e => simp [checked] at h
  | none =>
    simp only [checked, Except.ok.injEq, Prod.mk.injEq] at h
    exact ⟨rfl, h.1.symm, h.2.symm⟩

theorem varrAssign_ok (hspec : ∀ x ∈ vec, (r.spec T c).Holds E c.kind x)
    (ha : varrAssign E T c F r vec = .ok (c', v)) :
    c' = c ∧ v = valMakeAssignable (r.get c) r.shared ∧ ∀ x ∈ vec, F.nested.Holds E c.kind x := by
  obtain ⟨hnone, rfl, rfl⟩ := checked_ok ha
  refine ⟨rfl, rfl, ?_⟩
  intro x hx
  split_ifs at hnone with hskip
  · rcases hskip with hany | heq | hnil
    · rw [hany]
      exact holds_any
    · rw [heq]
      exact hspec x hx
    · simp [hnil] at hx
  · exact nestedErr_eq_none.mp hnone x hx

theorem vsetAssign_ok (hspec : ∀ x ∈ m, (r.spec T c).Holds E c.kind (.thing x))
    (ha : vsetAssign E T c F r m = .ok (c', v)) :
    c' = c ∧ v = .set m ∧ ∀ x ∈ m, F.nested.Holds E c.kind (.thing x) := by
  obtain ⟨hnone, rfl, rfl⟩ := checked_ok ha
  refine ⟨rfl, rfl, ?_⟩
  intro x hx
  split_ifs at hnone with hskip
  · rcases hskip with hany | heq | hnil
    · rw [hany]
      exact holds_any
    · rw [heq]
      exact hspec x hx
    · simp [Imap.mem_def, hnil] at hx
  · exact holds_of_typeId (setErr_eq_none.mp hnone x hx)

/-- A thing without type gets another restriction which its properties conform to. -/
theorem Conforms.restrict (h : Conforms E T c) {spec : Spec} (ht : c.kind t = .object .any)
    (hprops : ∀ x ∈ (c.props t).map Prod.snd, spec.Holds E c.kind x) :
    Conforms E T { c with kind := update c.kind t (.object spec) } := by
  have hne : ∀ {a k}, c.kind a = k → k ≠ .object .any → a ≠ t := by
    rintro a k hk hany rfl
    exact hany (hk.symm.trans ht)
  have hkind : ∀ a i, c.kind a = .instance i →
      update c.kind t (.object spec) a = .instance i := by
    intro a i ha
    rw [update_of_ne (hne ha (by simp))]
    exact ha
  constructor
  · intro f a ha
    have hat : a ≠ t := by
      rintro rfl
      simp at ha
    simp only [update_of_ne hat] at ha
    apply (h.typed f a ha).mono
    · exact fun a i _ hi => hkind a i hi
    · intro a hany ha
      simp only
      rw [update_of_ne (hne ha (by simpa using hany))]
      exact ha
  · intro a s ha kv hkv
    apply holds_mono (fun a i _ hi => hkind a i hi)
    by_cases hat : a = t
    · subst hat
      obtain rfl : spec = s := by simpa using ha
      exact hprops kv.2 (List.mem_map_of_mem hkv)
    · simp only [update_of_ne hat] at ha
      exact h.restricted a s ha kv hkv

/-- What `field__thing_assign` accepts: a thing with the restriction, or one without which
then gets it. -/
theorem thingAssign_ok (ha : thingAssign E c F t = .ok (c', v)) :
    v = .thing t ∧ (c' = c ∧ c.kind t = .object F.nested ∨
      c' = { c with kind := update c.kind t (.object F.nested) } ∧
        c.kind t = .object .any ∧ ∀ x ∈ (c.props t).map Prod.snd, F.nested.Holds E c.kind x) := by
  unfold thingAssign at ha
  cases hk : c.kind t with
  | «instance» type => simp [hk] at ha
  | object spec =>
    simp only [hk] at ha
    split_ifs at ha with heq hany
    · obtain ⟨rfl, rfl⟩ : c = c' ∧ Val.thing t = v := by simpa using ha
      exact ⟨rfl, .inl ⟨rfl, by rw [heq]⟩⟩
    · obtain ⟨hnone, rfl, rfl⟩ := checked_ok ha
      exact ⟨rfl, .inr ⟨rfl, by rw [not_not.mp hany], nestedErr_eq_none.mp hnone⟩⟩

/-- The value which is given conforms to the field. The elements of a list or set are checked,
unless it belongs to a field with the same nested specification. -/
theorem plain_holds
    (harr : ∀ flags vec, r.get c = .arr flags vec → ∀ x ∈ vec, (r.spec T c).Holds E c.kind x)
    (hset : ∀ m, r.get c = .set m → ∀ x ∈ m, (r.spec T c).Holds E c.kind (.thing x))
    (ha : plainAssign E T c F r = .ok (c', v)) : F.Holds E c'.kind v := by
  unfold plainAssign at ha
  split at ha
  · rename_i vec hb hr
    obtain ⟨rfl, rfl, hvec⟩ := varrAssign_ok (harr _ _ hr) ha
    simp only [hr, valMakeAssignable]
    exact holds_arr_iff.mpr (.inl hb)
  · rename_i hb hr
    obtain ⟨rfl, rfl, hm⟩ := vsetAssign_ok (hset _ hr) ha
    exact holds_set_iff.mpr (.inl hb)
  · simp at ha
  · simp at ha
  · rename_i t hb hr
    split_ifs at ha with hany
    · obtain ⟨rfl, rfl⟩ : c = c' ∧ Val.thing t = v := by simpa using ha
      exact .inr (by simp [hb, hany])
    · obtain ⟨rfl, ⟨rfl, ht⟩ | ⟨rfl, -⟩⟩ := thingAssign_ok ha
      · exact .inr (by simp [hb, ht])
      · exact .inr (by simp [hb])
  · rename_i vec hb hr
    obtain ⟨rfl, rfl, hvec⟩ := varrAssign_ok (harr _ _ hr) ha
    simp only [hr, valMakeAssignable]
    exact holds_arr_iff.mpr (.inr ⟨hb, hvec⟩)
  · rename_i m hb hr
    obtain ⟨rfl, rfl, hm⟩ := vsetAssign_ok (hset _ hr) ha
    exact holds_set_iff.mpr (.inr ⟨hb, hm⟩)
  · rename_i hfuture hmodule hthing harr hset
    obtain ⟨hnone, rfl, rfl⟩ := checked_ok ha
    apply holds_of_valueErr hnone
    · intro hb
      cases hv : r.get c' with
      | future id => exact (hfuture id hb hv).elim
      | module id => exact (hmodule id hb hv).elim
      | _ => simp [Val.tp]
    · intro hb
      cases hv : r.get c' with
      | thing t => exact (hthing t hb hv).elim
      | _ => simp [Val.tp]
    · intro hb
      cases hv : r.get c' with
      | arr flags vec => exact (harr flags vec hb hv).elim
      | _ => simp [Val.tp]
    · intro hb
      cases hv : r.get c' with
      | set m => exact (hset m hb hv).elim
      | _ => simp [Val.tp]

/-- Only the restriction of a thing without one can change. -/
theorem plain_cases (ha : plainAssign E T c F r = .ok (c', v)) :
    c' = c ∨ ∃ t, c' = { c with kind := update c.kind t (.object F.nested) } ∧
      c.kind t = .object .any ∧ (∀ x ∈ (c.props t).map Prod.snd, F.nested.Holds E c.kind x) ∧
        F.base = .plain .object ∧ F.nested ≠ .any ∧ r.get c = .thing t := by
  unfold plainAssign at ha
  split at ha
  · exact .inl (checked_ok ha).2.1
  · exact .inl (checked_ok ha).2.1
  · simp at ha
  · simp at ha
  · rename_i t hb hr
    split_ifs at ha with hany
    · exact .inl (by simpa using ha.symm : _ ∧ _).1
    · obtain ⟨-, ⟨rfl, -⟩ | ⟨hc, ht, hprops⟩⟩ := thingAssign_ok ha
      · exact .inl rfl
      · exact .inr ⟨t, hc, ht, hprops, hb, hany, hr⟩
  · exact .inl (checked_ok ha).2.1
  · exact .inl (checked_ok ha).2.1
  · exact .inl (checked_ok ha).2.1

/-- The cases of `ti_field_make_assignable` without a relation. -/
theorem plain_ok (h : Conforms E T c) (hp : c.kind p = .instance (T.field f).type)
    (ha : plainAssign E T c (T.field f) r = .ok (c', v)) :
    Conforms E T c' ∧ (T.field f).Holds E c'.kind v ∧
      c'.kind p = .instance (T.field f).type := by
  have hv := plain_holds (fun _ _ hr => spec_of_arr h hr) (fun _ hr => spec_of_set h hr) ha
  rcases plain_cases ha with rfl | ⟨t, rfl, hany, hprops, -⟩
  · exact ⟨h, hv, hp⟩
  · refine ⟨h.restrict hany hprops, hv, ?_⟩
    have hpt : p ≠ t := by
      rintro rfl
      simp [hp] at hany
    simpa [update_of_ne hpt] using hp

variable [DecidableEq φ]

/-- A value for a related property. -/
theorem related_ok (h : Conforms E T c) (hrel : T.rel f = some g)
    (ha : (T.schema E).makeAssignable (things E c) (view c) f p (r.related E T c) = .ok (s, m)) :
    ∀ x ∈ m, c.kind x = .instance (T.field g).type := by
  intro x hx
  have htarget := target_of_rel (E := E) hrel
  rcases typed_of_makeAssignable ha hx with hnone | ⟨spec, hset, hspec⟩ | htype
  · simp [hnone] at htarget
  · rw [htarget] at hspec
    have hget : r.get c = .set m := by
      unfold Rval.related at hset
      cases hr : r.get c <;> simp_all
    have hcode : (r.spec T c).code = (T.field g).type := by
      simp only [Rval.related, hget, Relations.Val.set.injEq, and_true] at hset
      rw [← hspec] at hset
      split_ifs at hset
      simpa using hset
    have hx := spec_of_set h hget x hx
    rw [eq_typeId_of_code hcode, holds_typeId] at hx
    exact hx
  · rw [htarget, Option.some.injEq] at htype
    exact Kind.typeId_eq.mp htype.symm

/-- `ti_field_make_assignable` gives a value which conforms, and leaves everything else so. -/
theorem makeAssignable_ok (h : Conforms E T c) (hp : c.kind p = .instance (T.field f).type)
    (ha : makeAssignable E T c f p r = .ok (c', v)) :
    Conforms E T c' ∧ (T.field f).Holds E c'.kind v ∧
      c'.kind p = .instance (T.field f).type := by
  unfold makeAssignable at ha
  split_ifs at ha with hrel hnil
  · obtain ⟨g, hg⟩ := Option.ne_none_iff_exists'.mp hrel
    split at ha
    · simp at ha
    · rename_i s m hs
      obtain ⟨rfl, rfl⟩ : _ = c' ∧ _ = v := by simpa using ha
      have hassigns := Relations.makeAssignable_ok hs
      have hm : ∀ x ∈ m, c.kind x = .instance (T.field g).type := related_ok h hg hs
      refine ⟨?_, holds_ofImap hg hm, hp⟩
      apply h.restore_of_adds hg hp (hassigns.adds hg)
      intro k hk hkr
      rw [← set_other hk s p m]
      exact hassigns.other hk hkr
  · obtain ⟨rfl, rfl⟩ : c = c' ∧ r.get c = v := by simpa using ha
    exact ⟨h, .inl hnil, hp⟩
  · exact plain_ok h hp ha

end Assignable

end ThingsDB.Typed
