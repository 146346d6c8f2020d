import ThingsDB.Typed.Modify

/-!
# Mapping to a wrapping type

`ti_field_maps_to_field` decides by two declarations if a property is shown by a wrapping type,
and `ti_field_maps_to_val` by the declaration of the wrapping type and a value. A field of the
wrapping type may be one of a wrap-only type. The first is about the values which the second
accepts.
-/

namespace ThingsDB.Typed

open Util

/-- `enum_tp` of an enumerator. -/
inductive EnumTp where
  | int
  | float
  | str
  | bytes
  | thing
  deriving DecidableEq, Repr

def EnumTp.spec : EnumTp → Base
  | int => .int
  | float => .float
  | str => .str
  | bytes => .bytes
  | thing => .object

/-- A specification with its condition, also one which only a wrap-only type has. -/
inductive WrapBase where
  | field (b : FieldBase)
  | type
  | arrType

/-- A field of a wrapping type, with the flags which the mapping depends on. -/
structure WrapField where
  base : WrapBase
  nillable : Bool
  nested : Spec
  ename : Bool
  skipNil : Bool
  skipFalse : Bool

def WrapBase.isEnum : WrapBase → Bool
  | .field b => b.isEnum
  | _ => false

def memberVal (ename : Bool) : Val → Val
  | .member _ name val => if ename then .name name else val
  | v => v

section Vals

variable (E : Env)

/-- The cases which `ti_field_maps_to_val` and `ti__spec_maps_to_nested_val` have in common.
Any thing can be mapped to a type. -/
def mapsBase (v : Val) : Base → Bool
  | .any => true
  | .object | .typeId _ => v.tp = .thing
  | .raw => v.isRaw
  | .str => v.isStr
  | .utf8 => v.isStr && E.isUtf8 v.data
  | .bytes => v.tp = .bytes
  | .int => v.tp = .int
  | .uint => match v with
    | .int i => 0 ≤ i
    | _ => false
  | .pint => match v with
    | .int i => 0 < i
    | _ => false
  | .nint => match v with
    | .int i => i < 0
    | _ => false
  | .float => v.tp = .float
  | .number => v.isNumber
  | .bool => v.tp = .bool
  | .arr => v.tp = .arr || v.tp = .set
  | .set => v.tp = .set
  | .datetime => v.isDatetimeStrict
  | .timeval => v.isTimeval
  | .regex => v.tp = .regex
  | .closure => v.tp = .closure
  | .error => v.tp = .error
  | .room => v.tp = .room
  | .task => v.tp = .task
  | .email => v.isStr && E.isEmail v.data
  | .url => v.isStr && E.isUrl v.data
  | .tel => v.isStr && E.isTel v.data
  | .enum => v.tp = .member || v.tp = .nil
  | .enumId i => v.enumEq (0x6000 + i)

end Vals

namespace WrapField

section Vals

variable {φ : Type} (E : Env) (c : Collection φ) (t : WrapField)

/-- The value to be tested, which for a member is what it shows unless a member is asked for. -/
def shown (isEnum : Bool) (v : Val) : Val := if isEnum then v else memberVal t.ename v

/-- `ti__spec_maps_to_nested_val` -/
def mapsToNestedBase (v : Val) : Bool :=
  mapsBase E (t.shown (FieldBase.plain t.nested.base).isEnum v) t.nested.base

def specMapsToNestedVal (v : Val) : Bool :=
  t.nested = .any || t.nested.nillable && v.tp = .nil || t.mapsToNestedBase E v

/-- `field__maps_arr_to_arr`, where `vspec` is `ti_varr_spec` of the list. -/
def mapsArrToArr (vspec : Spec) (vec : List Val) : Bool :=
  t.nested = .any || vec.isEmpty || t.nested = vspec || vec.all (t.specMapsToNestedVal E)

def mapsArrToType (vec : List Val) : Bool := vec.all fun v => v.tp = .thing

def mapsRestricted (x : ℕ) : Bool :=
  t.nested = .any ||
    match c.kind x with
    | .instance _ => false
    | .object spec => spec = t.nested || (c.props x).all fun kv => t.specMapsToNestedVal E kv.2

def mapsSetToArr : Bool := t.nested.base.code ≤ Base.object.code

/-- The switch of `ti_field_maps_to_val`. -/
def mapsSwitch (vspec : Spec) (v : Val) : Bool :=
  match t.base, v with
  | .field (.plain .object), .thing x => t.mapsRestricted E c x
  | .field (.plain .object), _ => false
  | .field (.plain .arr), .arr _ vec => t.mapsArrToArr E vspec vec
  | .field (.plain .arr), .set _ => t.mapsSetToArr
  | .field (.plain .arr), _ => false
  | .field (.plain b), v => mapsBase E v b
  | .field (.rematch _ pattern), v => v.isStr && E.regexTest pattern v.data
  | .field (.intRange mi ma), .int i => mi ≤ i && i ≤ ma
  | .field (.intRange _ _), _ => false
  | .field (.floatRange mi ma), .float f => mi ≤ f && f ≤ ma && !f.isNaN
  | .field (.floatRange _ _), _ => false
  | .field (.strRange mi ma), v => v.isStr && mi ≤ v.data.length && v.data.length ≤ ma
  | .field (.utf8Range mi ma), v =>
    v.isStr && E.isUtf8 v.data && mi ≤ v.data.length && v.data.length ≤ ma
  | .type, v => v.tp = .thing
  | .arrType, .arr _ vec => mapsArrToType vec
  | .arrType, v => v.tp = .set

variable (thingN runAt : ℕ → ℕ)

/-- The values which the flags of a field leave out. -/
def skips (v : Val) : Bool :=
  t.skipFalse && !v.asBool thingN runAt || t.skipNil && v.tp = .nil

def mapsToVal (vspec : Spec) (v : Val) : Bool :=
  if t.skips thingN runAt v then false
  else t.nillable && v.tp = .nil || t.mapsSwitch E c vspec (t.shown t.base.isEnum v)

end Vals

section Fields

variable (tp : EnumId → EnumTp) (t : WrapField) (f : Field)

/-- The specification of what is shown of a value. -/
def seen (isEnum : Bool) : Base → Base
  | .enumId e => if isEnum then .enumId e else if t.ename then .str else (tp e).spec
  | b => b

def seenField (isEnum : Bool) : FieldBase → FieldBase
  | .plain b => .plain (t.seen tp isEnum b)
  | b => b

/-- The switch of `field__maps_to_nested`. -/
def nestedSwitch (ofSet : Bool) (b o : Base) : Bool :=
  b = o ||
    match b with
    | .any => true
    | .object | .typeId _ => (FieldBase.plain o).isThing || ofSet
    | .enum => (FieldBase.plain o).isEnum
    | b => o ∈ b.narrower

def mapsToNested : Bool :=
  if t.nested = .any then true
  else if !t.nested.nillable && f.nested.nillable then false
  else
    nestedSwitch ((FieldBase.plain .set).covers f.base) t.nested.base
      (t.seen tp (FieldBase.plain t.nested.base).isEnum f.nested.base)

/-- The switch of `ti_field_maps_to_field`, where `o` is the specification of what is shown. -/
def fieldSwitch (o : FieldBase) : Bool :=
  match t.base with
  | .field (.plain .any) => true
  | .field (.plain .object) | .field (.plain (.typeId _)) | .type => o.isThing
  | .field (.plain .enum) => o.isEnum
  | .field (.plain .arr) =>
    ((FieldBase.plain .arr).covers o || (FieldBase.plain .set).covers o) && t.mapsToNested tp f
  | .field (.rematch _ pattern) =>
    match o with
    | .rematch _ p => p = pattern
    | _ => false
  | .arrType =>
    (FieldBase.plain .set).covers o || (FieldBase.plain .arr).covers o &&
      (!f.nested.nillable && (FieldBase.plain f.nested.base).isThing)
  | .field b => b.covers o

def mapsToField : Bool :=
  match t.base, t.nillable with
  | .field (.plain .any), false => true
  | base, nillable =>
    if !nillable && f.nillable then false
    else t.fieldSwitch tp f (t.seenField tp base.isEnum f.base)

end Fields

end WrapField

/-- The members in a value have a value of the type of their enumerator. -/
inductive Known (tp : EnumId → EnumTp) : Val → Prop
  | member {e : EnumId} {name : Raw} {x : Val} (hx : ∀ E kind, (tp e).spec.Holds E kind x) :
    Known tp (.member e name x)
  | arr {flags : ArrFlags} {vec : List Val} (hvec : ∀ x ∈ vec, Known tp x) :
    Known tp (.arr flags vec)
  | other {v : Val} (hm : v.tp ≠ .member) (ha : v.tp ≠ .arr) : Known tp v

variable {φ : Type} {E : Env} {T : Types φ} {c c' : Collection φ} {kind : ℕ → Kind}
variable {tp : EnumId → EnumTp} {t : WrapField} {f : Field} {v x : Val} {b o : Base}

theorem Known.of_member {e : EnumId} {name : Raw} (h : Known tp (.member e name x)) :
    (tp e).spec.Holds E kind x := by
  cases h with
  | member hx => exact hx E kind
  | other hm ha => exact absurd rfl hm

theorem Known.of_arr {flags : ArrFlags} {vec : List Val} (h : Known tp (.arr flags vec)) :
    ∀ x ∈ vec, Known tp x := by
  cases h with
  | arr hvec => exact hvec
  | other hm ha => exact absurd rfl ha

theorem enumEq_of_holds {i : EnumId} (h : (Base.enumId i).Holds E kind v) :
    v.enumEq (0x6000 + i) := by
  have := i.isLt
  exact (enumEq_enumId (by omega)).mpr h

theorem mapsBase_of_holds (h : b.Holds E kind v) : mapsBase E v b := by
  cases b with
  | typeId i =>
    obtain ⟨t, rfl, -⟩ := h
    rfl
  | uint | pint | nint =>
    obtain ⟨i, rfl, hi⟩ := h
    simpa [mapsBase] using hi
  | enumId i => exact enumEq_of_holds h
  | arr =>
    have harr : v.tp = .arr := h
    simp [mapsBase, harr]
  | any => rfl
  | _ => simpa [mapsBase, Base.Holds] using h

theorem memberVal_of_tp {ename : Bool} (h : v.tp ≠ .member) : memberVal ename v = v := by
  cases v <;> simp_all [memberVal, Val.tp]

namespace WrapField

theorem shown_of_tp {isEnum : Bool} (h : v.tp ≠ .member) : t.shown isEnum v = v := by
  unfold shown
  split_ifs
  · rfl
  · exact memberVal_of_tp h

/-- What is shown of a value has the specification of what is shown. -/
theorem seen_holds {isEnum : Bool} (hk : Known tp v) (hb : isEnum ∨ b ≠ .any ∧ b ≠ .enum)
    (h : b.Holds E kind v) : (t.seen tp isEnum b).Holds E kind (t.shown isEnum v) := by
  cases isEnum with
  | true => cases b <;> exact h
  | false =>
    obtain ⟨hany, henum⟩ := hb.resolve_left (by simp)
    by_cases hid : ∃ e, b = .enumId e
    · obtain ⟨e, rfl⟩ := hid
      obtain ⟨name, x, rfl⟩ := h
      simp only [seen, shown, memberVal, Bool.false_eq_true, if_false]
      cases t.ename with
      | true => rfl
      | false => exact hk.of_member
    · have hmember : v.tp ≠ .member := by
        intro hm
        cases v with
        | member e name x =>
          rcases h.of_member with hb | hb | hb
          · exact hany hb
          · exact henum hb
          · exact hid ⟨e, hb⟩
        | _ => simp [Val.tp] at hm
      rw [shown_of_tp hmember]
      cases b with
      | enumId e => exact absurd ⟨e, rfl⟩ hid
      | _ => exact h

theorem tp_of_isThing {o : FieldBase} (h : o.isThing) (hv : o.Allows E kind v) : v.tp = .thing := by
  unfold FieldBase.isThing at h
  split at h
  · obtain ⟨t, rfl, -⟩ := hv
    rfl
  · exact hv
  · simp at h

/-- The switch for nested declarations, except for the things of a set. -/
theorem mapsBase_of_nestedSwitch (h : nestedSwitch false b o) (hv : o.Holds E kind v) :
    mapsBase E v b := by
  unfold nestedSwitch at h
  rw [Bool.or_eq_true, decide_eq_true_eq] at h
  rcases h with rfl | h
  · exact mapsBase_of_holds hv
  · cases b with
    | any => rfl
    | object | typeId i =>
      simp only [Bool.or_false] at h
      simpa [mapsBase] using tp_of_isThing h hv
    | enum =>
      have henum : Base.enum.Holds E kind v := FieldBase.Allows.of_isEnum (o := .plain o) h hv
      exact mapsBase_of_holds henum
    | _ =>
      simp only [decide_eq_true_eq] at h
      exact mapsBase_of_holds (Base.Holds.of_narrower h hv)

/-- Nothing but `any` and `enum` maps the two themselves. -/
theorem ne_of_nestedSwitch (h : nestedSwitch false b o) (hany : b ≠ .any)
    (henum : b ≠ .enum) : o ≠ .any ∧ o ≠ .enum := by
  constructor
  all_goals
    rintro rfl
    unfold nestedSwitch at h
    cases b <;> simp_all [Base.narrower, FieldBase.isThing]

/-- `field__maps_to_nested` is about the values which `ti_spec_maps_to_nested_val` accepts. -/
theorem specMapsToNestedVal_of_holds (hset : f.base ≠ .plain .set) (h : t.mapsToNested tp f)
    (hk : Known tp v) (hv : f.nested.Holds E kind v) : t.specMapsToNestedVal E v := by
  unfold mapsToNested at h
  unfold specMapsToNestedVal
  split_ifs at h with hany hnil
  · simp [hany]
  · have hofSet : (FieldBase.plain .set).covers f.base = false := by
      by_contra hcov
      exact hset (FieldBase.eq_of_covers rfl (by simpa using hcov))
    rw [hofSet] at h
    rcases hv with ⟨hfnil, hv⟩ | hv
    · have htnil : t.nested.nillable = true := by simpa [hfnil] using hnil
      simp [htnil, hv]
    · have hbase : t.mapsToNestedBase E v = true := by
        apply mapsBase_of_nestedSwitch h
        apply seen_holds hk _ hv
        cases he : (FieldBase.plain t.nested.base).isEnum with
        | true => exact .inl rfl
        | false =>
          rw [he] at h
          have hne := ne_of_nestedSwitch h (fun hb => hany (Spec.eq_any_of_base hb))
            (by rintro hb; simp [hb, FieldBase.isEnum] at he)
          exact .inr ⟨fun hf => hne.1 (by rw [hf]; rfl), fun hf => hne.2 (by rw [hf]; rfl)⟩
      simp [hbase]

theorem seenField_allows {isEnum : Bool} {o : FieldBase} (hk : Known tp v)
    (hb : isEnum ∨ o ≠ .plain .any ∧ o ≠ .plain .enum) (h : o.Allows E kind v) :
    (t.seenField tp isEnum o).Allows E kind (t.shown isEnum v) := by
  cases o with
  | plain b =>
    apply seen_holds hk _ h
    simpa using hb
  | rematch | strRange | utf8Range =>
    have hstr : v.tp = .str ∨ v.tp = .name := by simpa [Val.isStr] using h.1
    rw [shown_of_tp (by rcases hstr with hv | hv <;> simp [hv])]
    exact h
  | intRange | floatRange =>
    rw [shown_of_tp (by obtain ⟨x, rfl, -⟩ := h; simp [Val.tp])]
    exact h

/-- Nothing but `any` and `enum` maps the two themselves. -/
theorem ne_of_fieldSwitch {o : FieldBase} (h : t.fieldSwitch tp f o)
    (hany : t.base ≠ .field (.plain .any)) (henum : t.base.isEnum = false) :
    o ≠ .plain .any ∧ o ≠ .plain .enum := by
  unfold fieldSwitch at h
  constructor
  all_goals
    rintro rfl
    cases hb : t.base with
    | field b =>
      cases b with
      | plain b =>
        cases b <;> simp_all [FieldBase.covers, Base.narrower, FieldBase.isThing, WrapBase.isEnum,
          FieldBase.isEnum]
      | _ => simp_all [FieldBase.covers]
    | type | arrType => simp_all [FieldBase.covers, Base.narrower, FieldBase.isThing]

/-- Only a list or a set is seen as one. -/
theorem eq_of_seenField {isEnum : Bool} {o : FieldBase} (hb : b = .arr ∨ b = .set)
    (h : (FieldBase.plain b).covers (t.seenField tp isEnum o)) : o = .plain b := by
  have hseen : t.seenField tp isEnum o = .plain b :=
    FieldBase.eq_of_covers (by rcases hb with rfl | rfl <;> rfl) h
  cases o with
  | plain o =>
    have hseen : t.seen tp isEnum o = b := FieldBase.plain.inj hseen
    cases o with
    | enumId e =>
      unfold seen at hseen
      rcases hb with rfl | rfl <;> split_ifs at hseen <;> cases htp : tp e <;>
        simp [htp, EnumTp.spec] at hseen
    | _ => rw [← hseen]; rfl
  | _ => simp [seenField] at hseen

theorem nested_ne_any (hset : f.base ≠ .plain .set) (h : t.mapsToNested tp f)
    (hany : t.nested ≠ .any) : f.nested ≠ .any := by
  intro hf
  have hofSet : (FieldBase.plain .set).covers f.base = false := by
    by_contra hcov
    exact hset (FieldBase.eq_of_covers rfl (by simpa using hcov))
  have hb : t.nested.base ≠ .any := fun hb => hany (Spec.eq_any_of_base hb)
  unfold mapsToNested nestedSwitch at h
  rw [hf, hofSet] at h
  cases hbase : t.nested.base <;>
    simp_all [Spec.any, seen, Base.narrower, FieldBase.isThing, FieldBase.isEnum]

section Sound

variable {vspec : Spec}

/-- A thing which is restricted to values which map. -/
theorem mapsRestricted_of_holds {x : ℕ} (hprops : ∀ x, ∀ kv ∈ c.props x, Known tp kv.2)
    (hconf : ∀ a spec, c.kind a = .object spec → ∀ kv ∈ c.props a, spec.Holds E c.kind kv.2)
    (hobj : t.nested ≠ .any → f.base = .plain .object ∧ t.mapsToNested tp f)
    (hv : f.Holds E c.kind (.thing x)) : t.mapsRestricted E c x := by
  unfold mapsRestricted
  by_cases hany : t.nested = .any
  · simp [hany]
  · obtain ⟨hb, hn⟩ := hobj hany
    have hset : f.base ≠ .plain .set := by simp [hb]
    have hx : c.kind x = .object f.nested := by
      simpa [Field.Holds, hb, Val.tp, nested_ne_any hset hn hany] using hv
    simp only [hx, Bool.or_eq_true, List.all_eq_true]
    right; right
    intro kv hkv
    exact specMapsToNestedVal_of_holds hset hn (hprops x kv hkv) (hconf x _ hx kv hkv)

theorem mapsSetToArr_of_set (hnest : f.SetOfThings) (hset : f.base = .plain .set)
    (h : t.mapsToNested tp f) : t.mapsSetToArr := by
  have hcode : t.nested.base = .any ∨ t.nested.base = .object ∨ ∃ i, t.nested.base = .typeId i := by
    unfold mapsToNested nestedSwitch at h
    rcases hnest hset with hn | ⟨i, hn⟩ <;>
      cases hb : t.nested.base <;>
        simp_all [Spec.any, seen, Base.narrower, FieldBase.isThing, FieldBase.isEnum]
  unfold mapsSetToArr
  rcases hcode with hb | hb | ⟨i, hb⟩
  · simp [hb, Base.code]
  · simp [hb]
  · have := i.isLt
    simp only [hb, Base.code, decide_eq_true_eq]
    omega

theorem mapsSwitch_arr (hnest : f.SetOfThings) (ht : t.base = .field (.plain .arr))
    (hf : f.base = .plain .arr ∨ f.base = .plain .set) (h : t.mapsToNested tp f) (hk : Known tp v)
    (hv : f.Holds E c.kind v) (hnil : ¬ (f.nillable ∧ v.tp = .nil)) : t.mapsSwitch E c vspec v := by
  have hv := hv.resolve_left hnil
  rcases hf with hb | hb
  · simp only [hb] at hv
    obtain ⟨flags, vec, rfl, hvec⟩ := hv
    simp only [mapsSwitch, ht, mapsArrToArr, Bool.or_eq_true, List.all_eq_true]
    right
    intro x hx
    exact specMapsToNestedVal_of_holds (by simp [hb]) h (hk.of_arr x hx) (hvec x hx)
  · simp only [hb] at hv
    obtain ⟨m, rfl, -⟩ := hv
    simp only [mapsSwitch, ht]
    exact mapsSetToArr_of_set hnest hb h

theorem mapsSwitch_of_allows {n : FieldBase} (ht : t.base = .field n) (hn : n.hasNested = false)
    (hf : ∀ mi ma, n ≠ .floatRange mi ma) (h : n.Allows E kind v) : t.mapsSwitch E c vspec v := by
  cases n with
  | plain b =>
    have hbase : mapsBase E v b = true := mapsBase_of_holds (show b.Holds E kind v from h)
    cases b with
    | object | arr => simp [FieldBase.hasNested] at hn
    | _ => simpa [mapsSwitch, ht] using hbase
  | rematch re pattern => simp [mapsSwitch, ht, h.1, h.2]
  | intRange mi ma =>
    obtain ⟨i, rfl, hi⟩ := h
    simp [mapsSwitch, ht, hi]
  | floatRange mi ma => exact absurd rfl (hf mi ma)
  | strRange mi ma => simp [mapsSwitch, ht, h.1, h.2]
  | utf8Range mi ma => simp [mapsSwitch, ht, h.1, h.2.1, h.2.2]

theorem tp_of_coll (hf : f.base = .plain .arr ∨ f.base = .plain .set)
    (h : f.base.Allows E kind v) : v.tp ≠ .member := by
  rcases hf with hb | hb <;> rw [hb] at h
  · have htp : v.tp = .arr := h
    simp [htp]
  · have htp : v.tp = .set := h
    simp [htp]

theorem mapsSwitch_object (ht : t.base = .field (.plain .object))
    (hprops : ∀ x, ∀ kv ∈ c.props x, Known tp kv.2)
    (hconf : ∀ a spec, c.kind a = .object spec → ∀ kv ∈ c.props a, spec.Holds E c.kind kv.2)
    (hobj : t.nested ≠ .any → f.base = .plain .object ∧ t.mapsToNested tp f)
    (hv : f.Holds E c.kind v) (hthing : (t.shown false v).tp = .thing) :
    t.mapsSwitch E c vspec (t.shown false v) := by
  by_cases hany : t.nested = .any
  · cases hs : t.shown false v <;> simp_all [mapsSwitch, mapsRestricted, Val.tp]
  · have hvt : v.tp = .nil ∨ v.tp = .thing := by
      rcases hv.allows with hn | ha
      · exact .inl hn.2
      · rw [(hobj hany).1] at ha
        exact .inr ha
    rw [shown_of_tp (by rcases hvt with h | h <;> simp [h])] at hthing ⊢
    cases v with
    | thing x =>
      simp only [mapsSwitch, ht]
      exact mapsRestricted_of_holds hprops hconf hobj hv
    | _ => simp [Val.tp] at hthing

theorem mapsSwitch_arrType (ht : t.base = .arrType)
    (hf : f.base = .plain .set ∨ f.base = .plain .arr ∧ f.nested.nillable = false ∧
      (FieldBase.plain f.nested.base).isThing)
    (hv : f.Holds E c.kind v) (hnil : ¬ (f.nillable ∧ v.tp = .nil)) :
    t.mapsSwitch E c vspec v := by
  have hv := hv.resolve_left hnil
  rcases hf with hb | ⟨hb, hn, hthing⟩
  · simp only [hb] at hv
    obtain ⟨m, rfl, -⟩ := hv
    simp [mapsSwitch, ht, Val.tp]
  · simp only [hb] at hv
    obtain ⟨flags, vec, rfl, hvec⟩ := hv
    simp only [mapsSwitch, ht, mapsArrToType, List.all_eq_true, decide_eq_true_eq]
    intro x hx
    rcases hvec x hx with hx | hx
    · simp [hn] at hx
    · exact tp_of_isThing hthing hx

/-- The switch on the two declarations is about the values which the one on a value accepts. -/
theorem mapsSwitch_of_fieldSwitch (hnest : f.SetOfThings)
    (hm : t.fieldSwitch tp f (t.seenField tp t.base.isEnum f.base)) (hk : Known tp v)
    (hprops : ∀ x, ∀ kv ∈ c.props x, Known tp kv.2)
    (hconf : ∀ a spec, c.kind a = .object spec → ∀ kv ∈ c.props a, spec.Holds E c.kind kv.2)
    (hobj : t.base = .field (.plain .object) → t.nested ≠ .any →
      f.base = .plain .object ∧ t.mapsToNested tp f)
    (hf : v.tp ≠ .float) (hv : f.Holds E c.kind v) (hnil : ¬ (f.nillable ∧ v.tp = .nil)) :
    t.mapsSwitch E c vspec (t.shown t.base.isEnum v) := by
  by_cases hany : t.base = .field (.plain .any)
  · simp [mapsSwitch, hany, mapsBase]
  have hallows : f.base.Allows E c.kind v := hv.allows.resolve_left hnil
  have hne : t.base.isEnum = true ∨ f.base ≠ .plain .any ∧ f.base ≠ .plain .enum := by
    cases he : t.base.isEnum with
    | true => exact .inl rfl
    | false =>
      rw [he] at hm
      have ho := ne_of_fieldSwitch hm hany he
      exact .inr ⟨fun hb => ho.1 (by rw [hb]; rfl), fun hb => ho.2 (by rw [hb]; rfl)⟩
  have hshown := seenField_allows (t := t) hk hne hallows
  unfold fieldSwitch at hm
  cases hb : t.base with
  | type =>
    simp only [hb] at hm
    rw [hb] at hshown
    simpa [mapsSwitch, hb] using tp_of_isThing hm hshown
  | arrType =>
    simp only [hb, Bool.or_eq_true, Bool.and_eq_true, Bool.not_eq_true'] at hm
    have hcoll : f.base = .plain .set ∨ f.base = .plain .arr ∧ f.nested.nillable = false ∧
        (FieldBase.plain f.nested.base).isThing = true := by
      rcases hm with hset | ⟨harr, hn⟩
      · exact .inl (eq_of_seenField (.inr rfl) hset)
      · exact .inr ⟨eq_of_seenField (.inl rfl) harr, hn⟩
    rw [shown_of_tp (tp_of_coll (hcoll.symm.imp And.left id) hallows)]
    exact mapsSwitch_arrType hb hcoll hv hnil
  | field n =>
    simp only [hb] at hm
    rw [hb] at hshown
    by_cases hfloat : ∃ mi ma, n = .floatRange mi ma
    · obtain ⟨mi, ma, rfl⟩ := hfloat
      cases hfb : f.base with
      | floatRange omi oma =>
        rw [hfb] at hallows
        obtain ⟨x, rfl, -⟩ := hallows
        exact absurd rfl hf
      | _ => simp [hfb, seenField, FieldBase.covers] at hm
    have hcovers : n.hasNested = false → n.covers (t.seenField tp n.isEnum f.base) = true →
        t.mapsSwitch E c vspec (t.shown n.isEnum v) = true := by
      intro hn hcov
      have hf' : ∀ mi ma, n ≠ .floatRange mi ma := fun mi ma hr => hfloat ⟨mi, ma, hr⟩
      have hmaps := hshown.of_covers hcov fun mi ma hr => absurd hr (hf' mi ma)
      exact mapsSwitch_of_allows hb hn hf' hmaps
    cases n with
    | plain b =>
      cases b with
      | any => exact absurd hb hany
      | object => exact mapsSwitch_object hb hprops hconf (hobj hb) hv (tp_of_isThing hm hshown)
      | typeId i => simpa [mapsSwitch, hb, mapsBase] using tp_of_isThing hm hshown
      | enum => exact mapsSwitch_of_allows hb rfl (by simp) (hshown.of_isEnum hm)
      | arr =>
        simp only [Bool.and_eq_true, Bool.or_eq_true] at hm
        have hcoll : f.base = .plain .arr ∨ f.base = .plain .set :=
          hm.1.imp (eq_of_seenField (.inl rfl)) (eq_of_seenField (.inr rfl))
        rw [shown_of_tp (tp_of_coll hcoll hallows)]
        exact mapsSwitch_arr hnest hb hcoll hm.2 hk hv hnil
      | set =>
        rw [FieldBase.eq_of_covers rfl hm] at hshown
        have htp : (t.shown (WrapBase.field (.plain .set)).isEnum v).tp = .set := hshown
        simpa [mapsSwitch, hb, mapsBase] using htp
      | _ => exact hcovers rfl hm
    | rematch re pattern =>
      cases hfb : f.base with
      | rematch ore p =>
        rw [hfb] at hm hshown
        obtain rfl : p = pattern := by simpa [seenField] using hm
        have hre : (FieldBase.rematch re p).Allows E c.kind (t.shown false v) := hshown
        exact mapsSwitch_of_allows hb rfl (by simp) hre
      | _ => simp [hfb, seenField] at hm
    | floatRange mi ma => exact (hfloat ⟨mi, ma, rfl⟩).elim
    | _ => exact hcovers rfl hm

/-- The nil of a nillable property is only mapped to a declaration which accepts it. -/
theorem nillable_of_mapsToField (h : t.mapsToField tp f) :
    t.base = .field (.plain .any) ∨ (f.nillable → t.nillable) ∧
      t.fieldSwitch tp f (t.seenField tp t.base.isEnum f.base) := by
  unfold mapsToField at h
  split at h
  · rename_i hb hn
    exact .inl hb
  · split_ifs at h with hnil
    refine .inr ⟨?_, h⟩
    intro hf
    simpa [hf] using hnil

/-- A mapping computed on declarations shows no value which the mapping computed on values
would hide, except for values which are skipped. A restricted thing must map as the lists of
its values do, which the mapping on declarations does not ask for. -/
theorem mapsToVal_of_mapsToField [DecidableEq φ] {T : Types φ} {r : Rval φ} {k : φ} {p : ℕ}
    {thingN runAt : ℕ → ℕ} (h : Conforms E T c) (hp : c.kind p = .instance (T.field k).type)
    (hnest : (T.field k).SetOfThings) (ha : makeAssignable E T c k p r = .ok (c', v))
    (hf : v.tp ≠ .float) (hk : Known tp v) (hprops : ∀ x, ∀ kv ∈ c'.props x, Known tp kv.2)
    (hm : t.mapsToField tp (T.field k) = true)
    (hobj : t.base = .field (.plain .object) → t.nested ≠ .any →
      (T.field k).base = .plain .object ∧ t.mapsToNested tp (T.field k) = true)
    (hskip : t.skips thingN runAt v = false) :
    t.mapsToVal E c' thingN runAt vspec v = true := by
  obtain ⟨hc, hv, -⟩ := makeAssignable_ok h hp ha
  simp only [mapsToVal, hskip, Bool.false_eq_true, if_false, Bool.or_eq_true, Bool.and_eq_true,
    decide_eq_true_eq]
  rcases nillable_of_mapsToField hm with hany | ⟨hle, hswitch⟩
  · right
    simp [mapsSwitch, hany, mapsBase]
  · by_cases hnil : (T.field k).nillable = true ∧ v.tp = .nil
    · exact .inl ⟨hle hnil.1, hnil.2⟩
    · exact .inr (mapsSwitch_of_fieldSwitch hnest hswitch hk hprops hc.restricted hobj hf hv hnil)

end Sound

/-- A type with one property `n` with definition `int?`. -/
def numField : Field where
  type := 0
  name := [110]
  specRaw := [105, 110, 116, 63]
  base := .plain .int
  nillable := true
  nested := .any
  nested_of_arr := by simp
  nested_any := by simp

def numTypes : Types Unit := .single (fun _ => numField) [()] (fun _ => rfl) <| by
  simp [Field.Uses, numField, Spec.any]

def nums : Collection Unit where
  kind _ := .instance 0
  id t := t + 1
  vals _ _ := .nil
  props _ := []

/-- A field of a wrapping type with definition `?int?`, which skips nil. -/
def skipNilField : WrapField where
  base := .field (.plain .int)
  nillable := true
  nested := .any
  ename := false
  skipNil := true
  skipFalse := false

theorem nums_conform : Conforms default numTypes nums := by
  constructor
  · intro f a _
    exact .inl ⟨rfl, rfl⟩
  · simp [nums]

theorem mapsToVal_five :
    makeAssignable default numTypes nums () 0 (.val (.int 5) false) = .ok (nums, .int 5) ∧
    skipNilField.mapsToVal default nums (fun _ => 0) (fun _ => 0) .any (.int 5) = true := by
  have ha : makeAssignable default numTypes nums () 0 (.val (.int 5) false) =
      .ok (nums, .int 5) := rfl
  have hm : skipNilField.mapsToField (fun _ => .int) numField = true := rfl
  refine ⟨ha, ?_⟩
  apply mapsToVal_of_mapsToField nums_conform rfl _ ha (by simp [Val.tp])
    (.other (by simp [Val.tp]) (by simp [Val.tp])) (by simp [nums]) hm
  · intro hb
    simp [skipNilField] at hb
  · rfl
  · intro hb
    simp [numTypes, Types.single, numField] at hb

/-- The nil which is accepted for a property with `int?` is not shown with `?int?`, although
the declaration maps. -/
theorem nil_not_mapsToVal : skipNilField.mapsToField (fun _ => .int) numField = true ∧
    makeAssignable default numTypes nums () 0 (.val .nil false) = .ok (nums, .nil) ∧
    skipNilField.mapsToVal default nums (fun _ => 0) (fun _ => 0) .any .nil = false :=
  ⟨rfl, rfl, rfl⟩

end WrapField
end ThingsDB.Typed
