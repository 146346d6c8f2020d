import ThingsDB.Lists.Accept

/-!
# Fields

`ti_field_t` with its specification and condition, and the checks of
`ti_field_make_assignable` which depend on the value alone. The specifications for
wrap-only types are left out, as there are no instances of them.
-/

namespace ThingsDB.Typed

open Util

/-- The pattern of a condition is one of the user, or one of those ThingsDB has. -/
inductive ReKind where
  | pattern
  | email
  | url
  | tel
  deriving DecidableEq, Repr

/-- The specification of a field without `TI_SPEC_NILLABLE`, together with its condition. -/
inductive FieldBase where
  | plain (b : Base)
  | rematch (re : ReKind) (pattern : Raw)
  | intRange (mi ma : Int64)
  | floatRange (mi ma : Float)
  | strRange (mi ma : ℕ)
  | utf8Range (mi ma : ℕ)

/-- A field of a type. Only lists, sets and things have a nested specification, and the one
of a list is neither a list nor a set. -/
structure Field where
  type : TypeId
  name : Raw
  specRaw : Raw
  base : FieldBase
  nillable : Bool
  nested : Spec
  nested_of_arr : base = .plain .arr → nested.base ≠ .arr ∧ nested.base ≠ .set
  nested_any : base ≠ .plain .arr → base ≠ .plain .set → base ≠ .plain .object → nested = .any

section Checks

variable (E : Env) (kind : ℕ → Kind) (F : Field)

def mismatch (nr : ExEnum) (text : String) : Ex :=
  ⟨nr, "mismatch in type `" ++ E.typeName F.type ++
    "`; property `" ++ E.text F.name ++ "` " ++ text⟩

/-- The label `type_error` of `ti_field_make_assignable`. -/
def typeError (v : Val) : Ex :=
  ⟨.typeError, "mismatch in type `" ++ E.typeName F.type ++ "`; type `" ++ v.typeStr E kind ++
    "` is invalid for property `" ++ E.text F.name ++
    "` with definition `" ++ E.text F.specRaw ++ "`"⟩

/-- The label `srange_error`. -/
def srangeError (mi ma : ℕ) : Ex :=
  mismatch E F .valueError (
    if ma = Int64.maxValue.toInt then
      "requires a string with a length of at least " ++ toString mi
    else if mi = ma then "requires a string with a length of " ++ toString mi
    else "requires a string with a length between " ++ toString mi ++ " and " ++ toString ma ++
      " (both inclusive)")

/-- The labels `email_error`, `url_error` and `tel_error`, and the others for one value. -/
def valueError (v : Val) : SpecRval → Option Ex
  | .success => none
  | .typeError => some (typeError E kind F v)
  | .utf8Error => some (mismatch E F .valueError "only accepts valid UTF8 data")
  | .uintError =>
    some (mismatch E F .valueError "only accepts integer values greater than or equal to 0")
  | .pintError => some (mismatch E F .valueError "only accepts positive integer values")
  | .nintError => some (mismatch E F .valueError "only accepts negative integer values")
  | .emailError => some (mismatch E F .valueError "only accepts an email address")
  | .urlError => some (mismatch E F .valueError "only accepts a URL")
  | .telError => some (mismatch E F .valueError "only accepts a telephone number")

/-- The label `re_error`. -/
def reError (v : Val) (pattern : Raw) : ReKind → Option Ex
  | .email => valueError E kind F v .emailError
  | .url => valueError E kind F v .urlError
  | .tel => valueError E kind F v .telError
  | .pattern => some (mismatch E F .valueError
      ("has a requirement to match pattern " ++ E.text pattern))

/-- The texts about the elements of a list, and about the values of a thing, where `what`
is the one or the other. -/
def nestedError (what items : String) : SpecRval → Option Ex
  | .success => none
  | .typeError => some (mismatch E F .typeError ("requires " ++ what ++ " with " ++ items ++
      " that matches definition `" ++ E.text F.specRaw ++ "`"))
  | .utf8Error =>
    some (mismatch E F .valueError ("requires " ++ what ++ " with UTF8 string values"))
  | .uintError => some (mismatch E F .valueError ("requires " ++ what ++
      " with integer values greater than or equal to 0"))
  | .pintError =>
    some (mismatch E F .valueError ("requires " ++ what ++ " with positive integer values"))
  | .nintError =>
    some (mismatch E F .valueError ("requires " ++ what ++ " with negative integer values"))
  | .emailError => some (mismatch E F .valueError ("requires " ++ what ++ " with email addresses"))
  | .urlError => some (mismatch E F .valueError ("requires " ++ what ++ " with URL's"))
  | .telError => some (mismatch E F .valueError ("requires " ++ what ++ " with telephone numbers"))

def nestedErr (what items : String) (vals : List Val) : Option Ex :=
  vals.findSome? fun v => nestedError E F what items (checkNestedVal E kind F.nested v)

def setErr (imap : Imap) : Option Ex :=
  if ∃ t ∈ imap.things, (kind t).typeId ≠ F.nested.code then
    some (mismatch E F .typeError ("has definition `" ++ E.text F.specRaw ++
      "` but got a set with at least one thing of another type"))
  else none

/-- The cases of `ti_field_make_assignable` which look at the value only. The tests are those
of `ti__spec_check_nested_val`, and the ones for a condition. -/
def valueErr (v : Val) : Option Ex :=
  match F.base with
  | .plain b => valueError E kind F v (checkNestedBase E kind v b)
  | .rematch re pattern =>
    if !v.isStr then some (typeError E kind F v)
    else if !E.regexTest pattern v.data then reError E kind F v pattern re
    else none
  | .intRange mi ma =>
    match v with
    | .int i =>
      if i < mi ∨ ma < i then
        some (mismatch E F .valueError ("requires an integer value between " ++
          toString mi.toInt ++ " and " ++ toString ma.toInt ++ " (both inclusive)"))
      else none
    | v => some (typeError E kind F v)
  | .floatRange mi ma =>
    match v with
    | .float f =>
      if f < mi ∨ ma < f then
        some (mismatch E F .valueError ("requires a float value between " ++ E.fmtFloat mi ++
          " and " ++ E.fmtFloat ma ++ " (both inclusive)"))
      else if f.isNaN then
        some (mismatch E F .valueError ("requires a float value between " ++ E.fmtFloat mi ++
          " and " ++ E.fmtFloat ma ++ " but got nan (not a number)"))
      else none
    | v => some (typeError E kind F v)
  | .strRange mi ma =>
    if !v.isStr then some (typeError E kind F v)
    else if v.data.length < mi ∨ ma < v.data.length then some (srangeError E F mi ma)
    else none
  | .utf8Range mi ma =>
    if !v.isStr then some (typeError E kind F v)
    else if !E.isUtf8 v.data then valueError E kind F v .utf8Error
    else if v.data.length < mi ∨ ma < v.data.length then some (srangeError E F mi ma)
    else none

/-- What the declaration of a field allows, where `any` has two exceptions. -/
def Field.Holds (v : Val) : Prop :=
  F.nillable = true ∧ v.tp = .nil ∨
    match F.base with
    | .plain .any => v.tp ≠ .future ∧ v.tp ≠ .module
    | .plain .object => ∃ t, v = .thing t ∧ (F.nested = .any ∨ kind t = .object F.nested)
    | .plain .arr => ∃ flags vec, v = .arr flags vec ∧ ∀ x ∈ vec, F.nested.Holds E kind x
    | .plain .set => ∃ imap, v = .set imap ∧ ∀ t ∈ imap.things, F.nested.Holds E kind (.thing t)
    | .plain b => b.Holds E kind v
    | .rematch _ pattern => v.isStr ∧ E.regexTest pattern v.data
    | .intRange mi ma => ∃ i, v = .int i ∧ mi ≤ i ∧ i ≤ ma
    | .floatRange mi ma => ∃ f, v = .float f ∧ ¬ f < mi ∧ ¬ ma < f ∧ ¬ f.isNaN
    | .strRange mi ma => v.isStr ∧ mi ≤ v.data.length ∧ v.data.length ≤ ma
    | .utf8Range mi ma => v.isStr ∧ E.isUtf8 v.data ∧ mi ≤ v.data.length ∧ v.data.length ≤ ma

end Checks

end ThingsDB.Typed
