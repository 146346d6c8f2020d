import ThingsDB.Val

/-!
# Specifications

The specifications of `ti_spec_enum_t` which an element of a list and a property of
a restricted thing can have, as 16 bits and as cases, and the two functions which
test if a value has one: `ti_val_is_spec` and `ti_spec_check_nested_val`.
-/

namespace ThingsDB

/-- A specification without `TI_SPEC_NILLABLE`. -/
inductive Base where
  | typeId (i : TypeId)
  | any
  | object
  | raw
  | str
  | utf8
  | bytes
  | int
  | uint
  | pint
  | nint
  | float
  | number
  | bool
  | arr
  | set
  | datetime
  | timeval
  | regex
  | closure
  | error
  | room
  | task
  | email
  | url
  | tel
  | enum
  | enumId (i : EnumId)
  deriving DecidableEq, Repr

def Base.code : Base → ℕ
  | typeId i => i
  | any => 0x4000
  | object => 0x4001
  | raw => 0x4002
  | str => 0x4003
  | utf8 => 0x4004
  | bytes => 0x4005
  | int => 0x4006
  | uint => 0x4007
  | pint => 0x4008
  | nint => 0x4009
  | float => 0x400a
  | number => 0x400b
  | bool => 0x400c
  | arr => 0x400d
  | set => 0x400e
  | datetime => 0x400f
  | timeval => 0x4010
  | regex => 0x4011
  | closure => 0x4012
  | error => 0x4013
  | room => 0x4014
  | task => 0x4015
  | email => 0x4016
  | url => 0x4017
  | tel => 0x4018
  | enum => 0x4019
  | enumId i => 0x6000 + i

/-- A specification, where `any` is never together with nillable. -/
structure Spec where
  base : Base
  nillable : Bool
  any_not_nillable : base = .any → nillable = false
  deriving DecidableEq

namespace Spec

def any : Spec := ⟨.any, false, fun _ => rfl⟩

theorem typeId_not_nillable (i : TypeId) : Base.typeId i = .any → false = false := fun _ => rfl

def code (s : Spec) : ℕ := s.base.code + if s.nillable then 0x8000 else 0

theorem eq_any_of_base {s : Spec} (h : s.base = .any) : s = any := by
  cases s with
  | mk base nillable hn =>
    obtain rfl : base = .any := h
    obtain rfl := hn rfl
    rfl

end Spec

/-- The field `type_id` of a thing, and its union `via`. -/
inductive Kind where
  | instance (type : TypeId)
  | object (spec : Spec)
  deriving DecidableEq

namespace Kind

def typeId : Kind → ℕ
  | .instance type => type
  | object _ => 0x4001

def type? : Kind → Option TypeId
  | .instance type => some type
  | object _ => none

end Kind

/-- `ti_spec_rval_enum` -/
inductive SpecRval where
  | success
  | typeError
  | utf8Error
  | uintError
  | pintError
  | nintError
  | emailError
  | urlError
  | telError
  deriving DecidableEq, Repr

section Check

variable (E : Env) (kind : ℕ → Kind)

namespace Val

/-- `ti_val_str` -/
def typeStr (v : Val) : String := v.valStr E fun t => (kind t).type?

/-- `ti_val_spec_map`: the tests for the specifications from `TI_SPEC_OBJECT` on. -/
def specMap (v : Val) : Base → Bool
  | .object => v.tp = .thing
  | .raw => v.isRaw
  | .str => v.isStr
  | .utf8 => v.isStr && E.isUtf8 v.data
  | .bytes => v.tp = .bytes
  | .int => v.tp = .int
  | .uint => match v with
    | .int i => 0 ≤ i
    | _ => false
  | .pint => match v with
    | .int i => 0 < i
    | _ => false
  | .nint => match v with
    | .int i => i < 0
    | _ => false
  | .float => v.tp = .float
  | .number => v.isNumber
  | .bool => v.tp = .bool
  | .arr => v.tp = .arr
  | .set => v.tp = .set
  | .datetime => v.isDatetimeStrict
  | .timeval => v.isTimeval
  | .regex => v.tp = .regex
  | .closure => v.tp = .closure
  | .error => v.tp = .error
  | .room => v.tp = .room
  | .task => v.tp = .task
  -- a name is not a string here
  | .email => v.tp = .str && E.isEmail v.data
  | .url => v.tp = .str && E.isUrl v.data
  | .tel => v.tp = .str && E.isTel v.data
  | .enum => v.tp = .member
  | .typeId _ | .any | .enumId _ => false

/-- `ti_spec_enum_eq_to_val` and `val__spec_enum_eq_to_val`, with `TI_ENUM_ID_MASK`. -/
def enumEq (spec : ℕ) : Val → Bool
  | .member enum _ _ => (enum : ℕ) = spec % 0x2000
  | _ => false

def hasTypeId (type : ℕ) : Val → Bool
  | .thing t => (kind t).typeId = type
  | _ => false

def isSpec (v : Val) (spec : Spec) : Bool :=
  if spec = .any ∨ spec.nillable ∧ v.tp = .nil then true
  else if 0x6000 ≤ spec.code then v.enumEq spec.code
  else if 0x4000 < spec.code then v.specMap E spec.base
  else v.hasTypeId kind spec.code

end Val

def typeCheck (ok : Bool) : SpecRval := if ok then .success else .typeError

def valueCheck (ok : Bool) (err : SpecRval) (test : Bool) : SpecRval :=
  if !ok then .typeError else if test then .success else err

def intCheck (v : Val) (err : SpecRval) (test : Int64 → Bool) : SpecRval :=
  match v with
  | .int i => if test i then .success else err
  | _ => .typeError

/-- `ti__spec_check_nested_val` -/
def checkNestedBase (v : Val) : Base → SpecRval
  | .any => .success
  | .object => typeCheck (v.tp = .thing)
  | .raw => typeCheck v.isRaw
  | .str => typeCheck v.isStr
  | .utf8 => valueCheck v.isStr .utf8Error (E.isUtf8 v.data)
  | .bytes => typeCheck (v.tp = .bytes)
  | .int => typeCheck (v.tp = .int)
  | .uint => intCheck v .uintError fun i => ¬ i < 0
  | .pint => intCheck v .pintError fun i => ¬ i ≤ 0
  | .nint => intCheck v .nintError fun i => ¬ 0 ≤ i
  | .float => typeCheck (v.tp = .float)
  | .number => typeCheck v.isNumber
  | .bool => typeCheck (v.tp = .bool)
  | .arr => typeCheck (v.tp = .arr)
  | .set => typeCheck (v.tp = .set)
  | .datetime => typeCheck v.isDatetimeStrict
  | .timeval => typeCheck v.isTimeval
  | .regex => typeCheck (v.tp = .regex)
  | .closure => typeCheck (v.tp = .closure)
  | .error => typeCheck (v.tp = .error)
  | .room => typeCheck (v.tp = .room)
  | .task => typeCheck (v.tp = .task)
  | .email => valueCheck v.isStr .emailError (E.isEmail v.data)
  | .url => valueCheck v.isStr .urlError (E.isUrl v.data)
  | .tel => valueCheck v.isStr .telError (E.isTel v.data)
  | .enum => typeCheck (v.tp = .member ∨ v.tp = .nil)
  | .enumId i => typeCheck (v.enumEq (0x6000 + i))
  | .typeId i => typeCheck (v.hasTypeId kind i)

def checkNestedVal (spec : Spec) (v : Val) : SpecRval :=
  if spec = .any ∨ spec.nillable ∧ v.tp = .nil then .success else checkNestedBase E kind v spec.base

/-- What a specification without nillable declares. -/
def Base.Holds (v : Val) : Base → Prop
  | typeId i => ∃ t, v = .thing t ∧ kind t = .instance i
  | any => True
  | object => v.tp = .thing
  | raw => v.isRaw
  | str => v.isStr
  | utf8 => v.isStr ∧ E.isUtf8 v.data
  | bytes => v.tp = .bytes
  | int => v.tp = .int
  | uint => ∃ i, v = .int i ∧ 0 ≤ i
  | pint => ∃ i, v = .int i ∧ 0 < i
  | nint => ∃ i, v = .int i ∧ i < 0
  | float => v.tp = .float
  | number => v.isNumber
  | bool => v.tp = .bool
  | arr => v.tp = .arr
  | set => v.tp = .set
  | datetime => v.isDatetimeStrict
  | timeval => v.isTimeval
  | regex => v.tp = .regex
  | closure => v.tp = .closure
  | error => v.tp = .error
  | room => v.tp = .room
  | task => v.tp = .task
  | email => v.isStr ∧ E.isEmail v.data
  | url => v.isStr ∧ E.isUrl v.data
  | tel => v.isStr ∧ E.isTel v.data
  | enum => v.tp = .member ∨ v.tp = .nil
  | enumId i => ∃ n x, v = .member i n x

def Spec.Holds (spec : Spec) (v : Val) : Prop :=
  spec.nillable = true ∧ v.tp = .nil ∨ spec.base.Holds E kind v

/-- A member which passes for a value of a nillable specification since the id of its
enumerator is in the last bits. -/
def Spec.Confused (spec : Spec) (v : Val) : Prop :=
  spec.nillable = true ∧ v.enumEq spec.code = true ∧ spec.base ≠ .enum ∧
    ∀ i, spec.base ≠ .enumId i

end Check

variable {E : Env} {kind : ℕ → Kind} {spec : Spec} {v : Val}
variable {b : Base} {err : SpecRval} {i : TypeId}

theorem Kind.typeId_eq {k : Kind} : k.typeId = i ↔ k = .instance i := by
  cases k with
  | «instance» type => simp [typeId, Fin.ext_iff]
  | object spec =>
    have := i.isLt
    simp only [typeId, reduceCtorEq, iff_false]
    omega

theorem Val.hasTypeId_iff : v.hasTypeId kind i ↔ ∃ t, v = .thing t ∧ kind t = .instance i := by
  cases v <;> simp [hasTypeId, Kind.typeId_eq]

theorem Val.enumEq_iff {n : ℕ} :
    v.enumEq n ↔ ∃ e : EnumId, (e : ℕ) = n % 0x2000 ∧ ∃ name x, v = .member e name x := by
  cases v <;> simp [enumEq]

theorem enumEq_enumId {i : EnumId} {n : ℕ} (hn : n % 0x2000 = i) :
    v.enumEq n ↔ ∃ name x, v = .member i name x := by
  rw [Val.enumEq_iff]
  constructor
  · rintro ⟨e, he, name, x, rfl⟩
    obtain rfl : e = i := Fin.ext (by omega)
    exact ⟨name, x, rfl⟩
  · rintro ⟨name, x, rfl⟩
    exact ⟨i, hn.symm, name, x, rfl⟩

theorem typeCheck_eq {ok : Bool} : typeCheck ok = .success ↔ ok := by
  cases ok <;> simp [typeCheck]

theorem valueCheck_eq {ok test : Bool} (herr : err ≠ .success) :
    valueCheck ok err test = .success ↔ ok ∧ test := by
  cases ok <;> cases test <;> simp [valueCheck, herr]

theorem intCheck_eq {test : Int64 → Bool} (herr : err ≠ .success) :
    intCheck v err test = .success ↔ ∃ i, v = .int i ∧ test i := by
  cases v with
  | int i => cases h : test i <;> simp [intCheck, herr, h]
  | _ => simp [intCheck]

theorem checkNestedBase_eq_success : checkNestedBase E kind v b = .success ↔ b.Holds E kind v := by
  cases b with
  | enumId i =>
    have := i.isLt
    rw [checkNestedBase, typeCheck_eq, enumEq_enumId (i := i) (by omega)]
    rfl
  | typeId i =>
    rw [checkNestedBase, typeCheck_eq, Val.hasTypeId_iff]
    rfl
  | _ => simp [checkNestedBase, Base.Holds, typeCheck_eq, valueCheck_eq, intCheck_eq]

/-- The check of `ti_spec_check_nested_val` is what the specification declares. -/
theorem checkNestedVal_eq_success :
    checkNestedVal E kind spec v = .success ↔ spec.Holds E kind v := by
  unfold checkNestedVal Spec.Holds
  split_ifs with h
  · rcases h with rfl | h
    · simp [Spec.any, Base.Holds]
    · simp [h]
  · rw [checkNestedBase_eq_success]
    constructor
    · exact Or.inr
    · rintro (hn | hb)
      · exact absurd (Or.inr hn) h
      · exact hb

theorem specMap_holds (h : v.specMap E b) : b.Holds E kind v := by
  cases b with
  | uint | pint | nint => cases v <;> simp_all [Val.specMap, Base.Holds]
  | email | url | tel =>
    simp only [Val.specMap, Bool.and_eq_true, decide_eq_true_eq] at h
    simpa [Base.Holds, Val.isStr, h.1] using h.2
  | _ => simp_all [Val.specMap, Base.Holds]

theorem Base.le_code : 0x6000 ≤ b.code ↔ ∃ i, b = .enumId i := by
  cases b with
  | typeId i => have := i.isLt; simp [code]; omega
  | _ => simp [code]

theorem Base.code_le : b.code ≤ 0x4000 ↔ b = .any ∨ ∃ i, b = .typeId i := by
  cases b with
  | typeId i => simp [code]
  | enumId i => simp [code]; omega
  | _ => simp [code]

theorem Spec.le_code : 0x6000 ≤ spec.code ↔ spec.nillable ∨ ∃ i, spec.base = .enumId i := by
  rw [← Base.le_code, code]
  cases spec.nillable with
  | false => simp
  | true =>
    simp only [if_true, true_or, iff_true]
    omega

theorem Spec.not_nillable_of_code (h : ¬ 0x6000 ≤ spec.code) : spec.nillable = false := by
  cases hn : spec.nillable with
  | false => rfl
  | true => exact absurd (Spec.le_code.mpr (.inl hn)) h

theorem Spec.code_of_not_nillable (h : spec.nillable = false) : spec.code = spec.base.code := by
  simp [code, h]

/-- A member has no specification but the ones for members. -/
theorem Base.Holds.of_member {e : EnumId} {name : Raw} {x : Val}
    (h : b.Holds E kind (.member e name x)) : b = .any ∨ b = .enum ∨ b = .enumId e := by
  cases b <;> simp_all [Holds, Val.tp, Val.isRaw, Val.isStr, Val.isNumber, Val.isDatetimeStrict,
    Val.isTimeval]

theorem holds_iff_of_enumEq (h₁ : ¬(spec = .any ∨ spec.nillable ∧ v.tp = .nil))
    (h₂ : 0x6000 ≤ spec.code) (h : v.enumEq spec.code) :
    spec.Holds E kind v ↔ ¬ spec.Confused v := by
  have hany : spec.base ≠ .any := fun hb => h₁ (.inl (Spec.eq_any_of_base hb))
  obtain ⟨e, he, name, x, rfl⟩ := Val.enumEq_iff.mp h
  by_cases hi : ∃ i, spec.base = .enumId i
  · obtain ⟨i, hi⟩ := hi
    have hmod : spec.code % 0x2000 = i := by
      have := i.isLt
      rw [Spec.code, hi, Base.code]
      split_ifs <;> omega
    simp [Spec.Holds, Spec.Confused, hi, Base.Holds, Fin.ext_iff, he, hmod]
  · have hn : spec.nillable = true := (Spec.le_code.mp h₂).resolve_right hi
    constructor
    · rintro (⟨-, hv⟩ | hb) hc
      · simp [Val.tp] at hv
      · rcases hb.of_member with hb | hb | hb
        · exact hany hb
        · exact hc.2.2.1 hb
        · exact hc.2.2.2 e hb
    · intro hc
      have hb : spec.base = .enum := by
        by_contra hb
        exact hc ⟨hn, h, hb, fun i hbi => hi ⟨i, hbi⟩⟩
      simp [Spec.Holds, hb, Base.Holds, Val.tp]

/-- What `ti_val_is_spec` accepts has the specification, unless it is a member which is
taken for something else. -/
theorem holds_iff_of_isSpec (h : v.isSpec E kind spec) :
    spec.Holds E kind v ↔ ¬ spec.Confused v := by
  unfold Val.isSpec at h
  split_ifs at h with h₁ h₂ h₃
  · rcases h₁ with rfl | h₁
    · simp [Spec.Holds, Spec.Confused, Spec.any, Base.Holds]
    · cases v <;> simp_all [Spec.Holds, Spec.Confused, Val.enumEq, Val.tp]
  · exact holds_iff_of_enumEq h₁ h₂ h
  · have hn := Spec.not_nillable_of_code h₂
    simp [Spec.Holds, Spec.Confused, hn, specMap_holds h]
  · have hn := Spec.not_nillable_of_code h₂
    rw [Spec.code_of_not_nillable hn] at h h₃
    rcases Base.code_le.mp (not_lt.mp h₃) with hb | ⟨i, hb⟩
    · exact absurd (.inl (Spec.eq_any_of_base hb)) h₁
    · rw [hb] at h
      simp [Spec.Holds, Spec.Confused, hn, hb, Base.Holds, Val.hasTypeId_iff.mp h]

end ThingsDB
