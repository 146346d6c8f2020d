import ThingsDB.Typed.Covers

/-!
# Another declaration for a field

`ti_spec_check_mod` and `ti_field_mod`, by which a field of a type with instances gets another
declaration without a closure to migrate them, and the values which are then still valid.
-/

namespace ThingsDB.Typed

open Util

/-- `ti_spec_mod_enum` -/
inductive SpecMod where
  | success
  | err
  | nillableErr
  | nested
  deriving DecidableEq, Repr

/-- A type or `thing`, by their specifications up to `TI_SPEC_OBJECT`. -/
def FieldBase.isThing : FieldBase → Bool
  | .plain (.typeId _) | .plain .object => true
  | _ => false

/-- `TI_SPEC_ENUM`, or the specification for one enumerator. -/
def FieldBase.isEnum : FieldBase → Bool
  | .plain .enum | .plain (.enumId _) => true
  | _ => false

/-- The switch of `ti_spec_check_mod`, where a specification has its condition. A pattern covers
nothing, not even itself. -/
def specModSwitch (ospec nspec : FieldBase) : SpecMod :=
  match nspec with
  | .plain .any => .success
  | .plain .object => if ospec.isThing then .nested else .err
  | .plain .arr | .plain .set => if nspec.covers ospec then .nested else .err
  | .plain .enum => if ospec.isEnum then .success else .err
  | nspec => if nspec.covers ospec then .success else .err

/-- `ti_spec_check_mod`, where `onil` and `nnil` are the nillable flags. -/
def specCheckMod (ospec nspec : FieldBase) (onil nnil : Bool) : SpecMod :=
  match nspec, nnil with
  | .plain .any, false => .success
  | nspec, nnil => if onil && !nnil then .nillableErr else specModSwitch ospec nspec

namespace Field

variable (E : Env) (old new : Field)

/-- The label `nillable` of `ti_field_mod`. -/
def nillableError : Ex :=
  ⟨.operation, "cannot apply type declaration `" ++ E.text new.specRaw ++ "` to `" ++
    E.text old.name ++ "` on type `" ++ E.typeName old.type ++
    "` without a closure to migrate existing instances; the old declaration was nillable " ++
    "while the new declaration is not" ++ docSee "collection-api/mod_type/mod"⟩

/-- The label `incompatible`. -/
def incompatibleError : Ex :=
  ⟨.operation, "cannot apply type declaration `" ++ E.text new.specRaw ++ "` to `" ++
    E.text old.name ++ "` on type `" ++ E.typeName old.type ++
    "` without a closure to migrate existing instances; the old declaration `" ++
    E.text old.specRaw ++ "` is not compatible with the new declaration" ++
    docSee "collection-api/mod_type/mod"⟩

/-- `ti_field_mod` for a type which is not wrap-only, with the field `new` which `field__init`
makes of the declaration. -/
def mod : Except Ex Field :=
  match specCheckMod old.base new.base old.nillable new.nillable with
  | .success => .ok new
  | .err => .error (incompatibleError E old new)
  | .nillableErr => .error (nillableError E old new)
  | .nested =>
    match specCheckMod (.plain old.nested.base) (.plain new.nested.base) old.nested.nillable
      new.nested.nillable with
    | .success => .ok new
    | .nillableErr => .error (nillableError E old new)
    | .err | .nested => .error (incompatibleError E old new)

end Field

section Specs

variable {E : Env} {kind : ℕ → Kind} {v : Val} {o n : FieldBase} {onil nnil : Bool}

theorem specModSwitch_success (h : specModSwitch o n = .success) :
    n = .plain .any ∨ n.hasNested = false ∧ n ≠ .plain .any ∧
      (n = .plain .enum ∧ o.isEnum ∨ n.covers o) := by
  unfold specModSwitch at h
  split at h
  · exact .inl rfl
  · split_ifs at h
  · split_ifs at h
  · split_ifs at h
  · split_ifs at h with henum
    exact .inr ⟨rfl, by simp, .inl ⟨rfl, henum⟩⟩
  · rename_i hany hobj harr hset henum
    split_ifs at h with hcov
    refine .inr ⟨?_, fun he => hany he, .inr hcov⟩
    unfold FieldBase.hasNested
    split
    · exact (hobj rfl).elim
    · exact (harr rfl).elim
    · exact (hset rfl).elim
    · rfl

theorem specModSwitch_nested (h : specModSwitch o n = .nested) :
    n = .plain .object ∧ o.isThing ∨ (n = .plain .arr ∨ n = .plain .set) ∧ o = n := by
  unfold specModSwitch at h
  split at h
  · simp at h
  · split_ifs at h with hthing
    exact .inl ⟨rfl, hthing⟩
  · split_ifs at h with hcov
    exact .inr ⟨.inl rfl, FieldBase.eq_of_covers rfl hcov⟩
  · split_ifs at h with hcov
    exact .inr ⟨.inr rfl, FieldBase.eq_of_covers rfl hcov⟩
  · split_ifs at h
  · split_ifs at h

theorem specCheckMod_eq (h : specCheckMod o n onil nnil = .success ∨
    specCheckMod o n onil nnil = .nested) :
    n = .plain .any ∨ (onil → nnil) ∧
      specCheckMod o n onil nnil = specModSwitch o n := by
  unfold specCheckMod at h ⊢
  split at h
  · exact .inl rfl
  · split_ifs at h ⊢ with hnil
    · simp at h
    · refine .inr ⟨?_, rfl⟩
      intro ho
      simpa [ho] using hnil

theorem specCheckMod_success (h : specCheckMod o n onil nnil = .success) :
    n = .plain .any ∨ n.hasNested = false ∧ n ≠ .plain .any ∧ (onil → nnil) ∧
      (n = .plain .enum ∧ o.isEnum ∨ n.covers o) := by
  rcases specCheckMod_eq (.inl h) with hany | ⟨hle, heq⟩
  · exact .inl hany
  · rcases specModSwitch_success (heq.symm.trans h) with hany | ⟨hnested, hne, hcase⟩
    · exact .inl hany
    · exact .inr ⟨hnested, hne, hle, hcase⟩

theorem specCheckMod_nested (h : specCheckMod o n onil nnil = .nested) :
    (onil → nnil) ∧ (n = .plain .object ∧ o.isThing ∨
      (n = .plain .arr ∨ n = .plain .set) ∧ o = n) := by
  rcases specCheckMod_eq (.inr h) with rfl | ⟨hle, heq⟩
  · cases nnil <;> cases onil <;> simp [specCheckMod, specModSwitch] at h
  · exact ⟨hle, specModSwitch_nested (heq.symm.trans h)⟩

theorem FieldBase.Allows.of_isEnum (h : o.isEnum) (hv : o.Allows E kind v) :
    (FieldBase.plain .enum).Allows E kind v := by
  unfold FieldBase.isEnum at h
  split at h
  · exact hv
  · obtain ⟨name, x, rfl⟩ := hv
    exact .inl rfl
  · simp at h

/-- The values of a specification are values of one which it can be changed to. -/
theorem Spec.Holds.of_specCheckMod {o n : Spec}
    (h : specCheckMod (.plain o.base) (.plain n.base) o.nillable n.nillable = .success)
    (hv : o.Holds E kind v) : n.Holds E kind v := by
  rcases specCheckMod_success h with hany | ⟨-, -, hle, hcase⟩
  · rw [Spec.eq_any_of_base (by simpa using hany : n.base = .any)]
    exact holds_any
  · rcases hv with ⟨hnil, hv⟩ | hv
    · exact .inl ⟨hle hnil, hv⟩
    · right
      rcases hcase with ⟨henum, ho⟩ | hcov
      · rw [FieldBase.plain.inj henum]
        exact FieldBase.Allows.of_isEnum (o := .plain o.base) ho hv
      · exact FieldBase.Allows.of_covers_plain (o := .plain o.base) hcov hv

/-- Nothing but `any` is a change of `any`. -/
theorem eq_any_of_specCheckMod {n : Spec} (h : specCheckMod (.plain .any) (.plain n.base) onil
    n.nillable = .success) : n = .any := by
  rcases specCheckMod_success h with hany | ⟨-, hne, -, ⟨-, henum⟩ | hcov⟩
  · exact Spec.eq_any_of_base (by simpa using hany)
  · simp [FieldBase.isEnum] at henum
  · simp only [FieldBase.covers, decide_eq_true_eq] at hcov
    rcases hcov with hb | hb
    · exact absurd (by rw [hb]) hne
    · cases hn : n.base <;> simp [hn, Base.narrower] at hb

end Specs

section Values

variable {E : Env} {kind : ℕ → Kind} {v : Val} {old new F : Field}

theorem Field.Holds.tp_ne (h : F.Holds E kind v) : v.tp ≠ .future ∧ v.tp ≠ .module := by
  rcases h with ⟨-, h⟩ | h
  · simp [h]
  · cases v with
    | future id | module id =>
      cases hb : F.base with
      | plain b => cases b <;> simp_all [Base.Holds, Val.tp, Val.isRaw, Val.isStr, Val.isNumber,
          Val.isDatetimeStrict, Val.isTimeval]
      | _ => simp_all [Val.tp, Val.isStr]
    | _ => simp [Val.tp]

/-- The restriction of a thing becomes another one. Things keep the one they have. -/
def Field.Rerestricts (old new : Field) : Prop :=
  old.base = .plain .object ∧ new.base = .plain .object ∧ new.nested ≠ .any ∧
    new.nested ≠ old.nested

theorem Field.mod_ok (h : old.mod E new = .ok F) : F = new ∧
    (specCheckMod old.base new.base old.nillable new.nillable = .success ∨
      specCheckMod old.base new.base old.nillable new.nillable = .nested ∧
      specCheckMod (.plain old.nested.base) (.plain new.nested.base) old.nested.nillable
        new.nested.nillable = .success) := by
  unfold Field.mod at h
  split at h
  · rename_i hs
    exact ⟨by simpa using h.symm, .inl hs⟩
  · simp at h
  · simp at h
  · rename_i hs
    split at h
    · rename_i hn
      exact ⟨by simpa using h.symm, .inr ⟨hs, hn⟩⟩
    · simp at h
    · simp at h
    · simp at h

/-- The nested specification of a type is `any`, so `thing` must be without a restriction. -/
theorem nested_eq_any_of_typeId {i : TypeId} (hb : old.base = .plain (.typeId i))
    (h : specCheckMod (.plain old.nested.base) (.plain new.nested.base) old.nested.nillable
      new.nested.nillable = .success) : new.nested = .any := by
  have hany : old.nested = .any := by
    apply old.nested_any <;> simp [hb]
  rw [hany] at h
  exact eq_any_of_specCheckMod h

/-- A value of the old declaration is one of the new declaration, unless the restriction of
a thing changes. -/
theorem Field.Holds.of_mod (h : old.mod E new = .ok F) (hkeep : ¬ old.Rerestricts new)
    (hf : v.tp ≠ .float) (hv : old.Holds E kind v) : new.Holds E kind v := by
  obtain ⟨-, hs | ⟨hs, hn⟩⟩ := Field.mod_ok h
  · rcases specCheckMod_success hs with hany | ⟨hnested, hany, hle, hcase⟩
    · right
      rw [hany]
      exact hv.tp_ne
    · rcases hv.allows with ⟨hnil, hv⟩ | hv
      · exact .inl ⟨hle hnil, hv⟩
      · apply Field.holds_of_allows hnested hany
        rcases hcase with ⟨henum, ho⟩ | hcov
        · rw [henum]
          exact hv.of_isEnum ho
        · exact hv.of_covers hcov (fun _ _ _ => hf)
  · obtain ⟨hle, ⟨hobj, hthing⟩ | ⟨hcoll, heq⟩⟩ := specCheckMod_nested hs
    · rcases hv with ⟨hnil, hv⟩ | hv
      · exact .inl ⟨hle hnil, hv⟩
      · right
        simp only [hobj]
        unfold FieldBase.isThing at hthing
        split at hthing
        · rename_i i hb
          simp only [hb] at hv
          obtain ⟨t, rfl, -⟩ := hv
          exact ⟨t, rfl, .inl (nested_eq_any_of_typeId hb hn)⟩
        · rename_i hb
          simp only [hb] at hv
          obtain ⟨t, rfl, ht⟩ := hv
          by_cases hany : new.nested = .any
          · exact ⟨t, rfl, .inl hany⟩
          · have hsame : new.nested = old.nested := by
              by_contra hne
              exact hkeep ⟨hb, hobj, hany, hne⟩
            rw [← hsame] at ht
            exact ⟨t, rfl, ht⟩
        · simp at hthing
    · rcases hv with ⟨hnil, hv⟩ | hv
      · exact .inl ⟨hle hnil, hv⟩
      · right
        rw [heq] at hv
        rcases hcoll with hb | hb
        · simp only [hb] at hv ⊢
          obtain ⟨flags, vec, rfl, hvec⟩ := hv
          exact ⟨flags, vec, rfl, fun x hx => Spec.Holds.of_specCheckMod hn (hvec x hx)⟩
        · simp only [hb] at hv ⊢
          obtain ⟨m, rfl, hm⟩ := hv
          exact ⟨m, rfl, fun x hx => Spec.Holds.of_specCheckMod hn (hm x hx)⟩

end Values

section Accepted

variable {φ : Type} {E : Env} {T : Types φ} {c c' : Collection φ} {v w : Val} {shared : Bool}
variable {kind : ℕ → Kind} {F : Field}

/-- `ti_field_make_assignable` for a field without a relation. A property with a relation
cannot be modified. -/
def Field.assign (E : Env) (T : Types φ) (c : Collection φ) (F : Field) (r : Rval φ) :
    Except Ex (Collection φ × Val) :=
  if F.nillable ∧ (r.get c).tp = .nil then .ok (c, r.get c) else plainAssign E T c F r

/-- `field__init` accepts a type or `thing` for the things of a set, and the latter is `any`. -/
def Field.SetOfThings (F : Field) : Prop :=
  F.base = .plain .set →
    F.nested = .any ∨ ∃ i, F.nested = ⟨.typeId i, false, Spec.typeId_not_nillable i⟩

theorem Field.holds_of_assign (h : F.assign E T c (.val v shared) = .ok (c', w)) :
    F.Holds E c'.kind w := by
  unfold Field.assign at h
  split_ifs at h with hnil
  · obtain ⟨rfl, rfl⟩ : c = c' ∧ _ = w := by simpa using h
    exact .inl hnil
  · exact plain_holds (fun _ _ _ x _ => holds_any) (fun _ _ x _ => holds_any) h

/-- No check changes the type of a value. -/
theorem Field.tp_of_assign (h : F.assign E T c (.val v shared) = .ok (c', w)) : w.tp = v.tp := by
  have harr : ∀ flags vec, v = .arr flags vec → (valMakeAssignable v shared).tp = v.tp := by
    rintro flags vec rfl
    rfl
  unfold Field.assign at h
  split_ifs at h with hnil
  · obtain ⟨rfl, rfl⟩ : c = c' ∧ _ = w := by simpa using h
    rfl
  · unfold plainAssign at h
    split at h
    · rename_i hv
      rw [(checked_ok h).2.2]
      exact harr _ _ hv
    · rename_i hv
      rw [(checked_ok h).2.2, show v = _ from hv]
    · simp at h
    · simp at h
    · rename_i t hb hv
      rw [show v = .thing t from hv]
      split_ifs at h with hany
      · obtain ⟨rfl, rfl⟩ : c = c' ∧ Val.thing t = w := by simpa using h
        rfl
      · rw [(thingAssign_ok h).1]
    · rename_i hv
      rw [(checked_ok h).2.2]
      exact harr _ _ hv
    · rename_i hv
      rw [(checked_ok h).2.2, show v = _ from hv]
    · rw [(checked_ok h).2.2]
      rfl

theorem valueErr_of_allows (h : F.base.Allows E kind v) : valueErr E kind F v = none := by
  unfold valueErr
  cases hb : F.base with
  | plain b =>
    rw [hb] at h
    exact valueError_eq_none.mpr (checkNestedBase_eq_success.mpr h)
  | rematch re pattern =>
    rw [hb] at h
    simp [h.1, h.2]
  | intRange mi ma =>
    rw [hb] at h
    obtain ⟨i, rfl, hmi, hma⟩ := h
    simp [Int64.not_lt.mpr hmi, Int64.not_lt.mpr hma]
  | floatRange mi ma =>
    rw [hb] at h
    obtain ⟨f, rfl, hmi, hma, hnan⟩ := h
    simp only
    rw [if_neg (not_or.mpr ⟨hmi, hma⟩), if_neg hnan]
  | strRange mi ma =>
    rw [hb] at h
    simp [h.1, h.2]
  | utf8Range mi ma =>
    rw [hb] at h
    simp [h.1, h.2.1, h.2.2]

/-- A value which conforms is accepted, and nothing changes elsewhere. -/
theorem Field.assign_of_holds (hset : F.SetOfThings) (h : F.Holds E c.kind v) :
    ∃ w, F.assign E T c (.val v shared) = .ok (c, w) := by
  unfold Field.assign
  split_ifs with hnil
  · exact ⟨v, rfl⟩
  · have hb := h.resolve_left hnil
    unfold plainAssign
    split
    · rename_i hany hv
      exact ⟨_, congrArg (checked c _) (if_pos (.inl (nested_of_any hany)))⟩
    · rename_i hany hv
      exact ⟨_, congrArg (checked c _) (if_pos (.inl (nested_of_any hany)))⟩
    · rename_i hv
      exact absurd (by rw [show v = _ from hv]; rfl) h.tp_ne.1
    · rename_i hv
      exact absurd (by rw [show v = _ from hv]; rfl) h.tp_ne.2
    · rename_i t hobj hv
      simp only [hobj] at hb
      obtain ⟨t', ht', hk⟩ := hb
      obtain rfl : t = t' := by simpa [Rval.get, ht'] using hv.symm
      refine ⟨.thing t, ?_⟩
      split_ifs with hany
      · rfl
      · simp [thingAssign, hk.resolve_left hany]
    · rename_i flags vec harr hv
      rw [show v = .arr flags vec from hv] at h
      have herr : nestedErr E c.kind F "an array" "items" vec = none :=
        nestedErr_eq_none.mpr h.of_arr
      exact ⟨_, by simp [varrAssign, checked, herr]; rfl⟩
    · rename_i m hs hv
      rw [show v = .set m from hv] at h
      refine ⟨.set m, ?_⟩
      rcases hset hs with hany | ⟨i, hi⟩
      · simp [vsetAssign, checked, hany]
      · have herr : setErr E c.kind F m = none := by
          apply setErr_eq_none.mpr
          intro x hx
          have hx := h.of_set x hx
          rw [hi, holds_typeId] at hx
          rw [Kind.typeId_eq.mpr hx, hi]
          rfl
        simp [vsetAssign, checked, herr]
    · have herr : valueErr E c.kind F v = none :=
        valueErr_of_allows (h.allows.resolve_left hnil)
      exact ⟨v, by simp [checked, Rval.get, herr]⟩

end Accepted

section Mod

variable {φ : Type} {E : Env} {T : Types φ} {old new : Field}

def restrictedTo (φ : Type) (spec : Spec) : Collection φ where
  kind _ := .object spec
  id _ := 0
  vals _ _ := .nil
  props _ := []

/-- A thing with one restriction is not accepted for a field with another one. -/
theorem assign_rerestricted (shared : Bool) (h : old.Rerestricts new)
    (hmod : old.mod E new = .ok new) :
    old.assign E T (restrictedTo φ old.nested) (.val (.thing 0) shared) =
      .ok (restrictedTo φ old.nested, .thing 0) ∧
    ∃ e, new.assign E T (restrictedTo φ old.nested) (.val (.thing 0) shared) = .error e := by
  obtain ⟨hold, hnew, hany, hne⟩ := h
  have hold' : old.nested ≠ .any := by
    intro ho
    obtain ⟨-, hs | ⟨-, hn⟩⟩ := Field.mod_ok hmod
    · rcases specCheckMod_success hs with hb | ⟨hb, -⟩
      · simp [hnew] at hb
      · simp [hnew, FieldBase.hasNested] at hb
    · rw [ho] at hn
      exact hany (eq_any_of_specCheckMod hn)
  constructor
  · simp [Field.assign, plainAssign, Rval.get, Val.tp, hold, hold', thingAssign, restrictedTo]
  · simp [Field.assign, plainAssign, Rval.get, Val.tp, hnew, hany, thingAssign, restrictedTo,
      Ne.symm hne, hold']

/-- What `ti_field_mod` accepts without a closure needs no migration of the values, exactly
if the restriction of a thing is not replaced by another one. -/
theorem mod_needs_no_migration_iff (hset : new.SetOfThings) (hmod : old.mod E new = .ok new) :
    (∀ (c c' : Collection φ) (v w : Val) (shared shared' : Bool), v.tp ≠ .float →
      old.assign E T c (.val v shared) = .ok (c', w) →
      ∃ x, new.assign E T c' (.val w shared') = .ok (c', x)) ↔ ¬ old.Rerestricts new := by
  constructor
  · intro h hre
    obtain ⟨hold, e, hnew⟩ := assign_rerestricted (T := T) true hre hmod
    obtain ⟨x, hx⟩ := h _ _ _ _ true true (by simp [Val.tp]) hold
    simp [hnew] at hx
  · intro hkeep c c' v w shared shared' hf h
    apply Field.assign_of_holds hset
    apply Field.Holds.of_mod hmod hkeep _ (Field.holds_of_assign h)
    rw [Field.tp_of_assign h]
    exact hf

end Mod

/-- A field `thing<..>` with the nested specification. -/
def thingField (nested : Spec) : Field where
  type := 0
  name := []
  specRaw := []
  base := .plain .object
  nillable := false
  nested := nested
  nested_of_arr := by simp
  nested_any := by simp

def noTypes : Types Empty where
  field := Empty.elim
  fields _ := []
  rel _ := none
  inUse _ := false
  fields_type := by simp
  rel_involutive := Converse.involutive_none _
  rel_spec f := f.elim
  uses_inUse f := f.elim

def intSpec : Spec := ⟨.int, false, by simp⟩

def numberSpec : Spec := ⟨.number, false, by simp⟩

/-- A thing with integers is still one for `thing`. -/
theorem mod_thing_of_int :
    (thingField intSpec).assign default noTypes (restrictedTo Empty intSpec)
      (.val (.thing 0) true) = .ok (restrictedTo Empty intSpec, .thing 0) ∧
    ∃ x, (thingField .any).assign default noTypes (restrictedTo Empty intSpec)
      (.val (.thing 0) true) = .ok (restrictedTo Empty intSpec, x) := by
  have hold : (thingField intSpec).assign default noTypes (restrictedTo Empty intSpec)
      (.val (.thing 0) true) = .ok (restrictedTo Empty intSpec, .thing 0) := rfl
  have hkeep : ¬ (thingField intSpec).Rerestricts (thingField .any) := fun h => h.2.2.1 rfl
  have hset : (thingField .any).SetOfThings := fun h => by simp [thingField] at h
  exact ⟨hold, (mod_needs_no_migration_iff hset rfl).mpr hkeep _ _ _ _ true true
    (by simp [Val.tp]) hold⟩

/-- A thing with integers is not accepted any more after `thing<int>` has been changed to
`thing<number>`. -/
theorem mod_thing_int_number :
    (thingField intSpec).mod default (thingField numberSpec) = .ok (thingField numberSpec) ∧
    (thingField intSpec).assign default noTypes (restrictedTo Empty intSpec)
      (.val (.thing 0) true) = .ok (restrictedTo Empty intSpec, .thing 0) ∧
    ∃ e, (thingField numberSpec).assign default noTypes (restrictedTo Empty intSpec)
      (.val (.thing 0) true) = .error e := by
  exact ⟨rfl, rfl, _, rfl⟩

end ThingsDB.Typed
