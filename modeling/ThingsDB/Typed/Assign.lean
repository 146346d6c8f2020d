import ThingsDB.Typed.Collection

/-!
# Assignments

`ti_field_make_assignable` and the ways to reach it or to go around it: `do__name_assign`,
`index__set`, `index__array_ass`, `index__slice_ass` and `do__f_to_thing`. Operands are
evaluated before; locks and the tests which depend on the query are left out.
-/

namespace ThingsDB.Typed

open Util Relations

variable {φ : Type} [DecidableEq φ]

section Assignable

variable (E : Env) (T : Types φ) (c : Collection φ)

def Rval.get : Rval φ → Val
  | .val v _ => v
  | .prop p f => c.vals f p
  | .key p name => ((c.props p).lookup name).getD .nil

/-- `ti_varr_spec` and `ti_vset_spec` -/
def Rval.spec : Rval φ → Spec
  | .val _ _ | .key _ _ => .any
  | .prop p f => if c.kind p = .instance (T.field f).type then (T.field f).nested else .any

def Rval.shared : Rval φ → Bool
  | .val _ shared => shared
  | .prop _ _ | .key _ _ => true

/-- `ti_val_make_assignable`. An array without other references stays a tuple. -/
def valMakeAssignable (v : Val) (shared : Bool) : Val :=
  match v with
  | .arr flags vec => .arr { flags with tuple := flags.tuple && !shared } vec
  | .future _ | .module _ => .nil
  | v => v

/-- The value as `Relations` has it. -/
def Rval.related (r : Rval φ) : Relations.Val ℕ :=
  match r.get c with
  | .nil => .nil
  | .thing t => .thing t
  | .set imap => .set (if r.spec T c = .any then none else some (r.spec T c).code) imap
  | v => .other (v.typeStr E c.kind)

def checked (v : Val) : Option Ex → Except Ex (Collection φ × Val)
  | some e => .error e
  | none => .ok (c, v)

def varrAssign (F : Field) (r : Rval φ) (vec : List Val) : Except Ex (Collection φ × Val) :=
  checked c (valMakeAssignable (r.get c) r.shared)
    (if F.nested = .any ∨ F.nested = r.spec T c ∨ vec = [] then none
      else nestedErr E c.kind F "an array" "items" vec)

/-- `field__vset_assign` without a relation. -/
def vsetAssign (F : Field) (r : Rval φ) (imap : Imap) : Except Ex (Collection φ × Val) :=
  checked c (.set imap)
    (if F.nested = .any ∨ F.nested = r.spec T c ∨ imap.things = [] then none
      else setErr E c.kind F imap)

/-- `field__thing_assign`, where a thing without restriction gets the one of the field. -/
def thingAssign (F : Field) (t : ℕ) : Except Ex (Collection φ × Val) :=
  match c.kind t with
  | .instance type =>
    .error (mismatch E F .typeError
      ("requires a non-typed thing but got type `" ++ E.typeName type ++ "`"))
  | .object spec =>
    if spec = F.nested then .ok (c, .thing t)
    else if spec ≠ .any then
      .error ⟨.valueError, "mismatch in type `" ++ E.typeName F.type ++ "` on property `" ++
        E.text F.name ++ "`; restriction mismatch"⟩
    else
      checked { c with kind := Function.update c.kind t (.object F.nested) } (.thing t)
        (nestedErr E c.kind F "a thing" "values" ((c.props t).map Prod.snd))

/-- The values which no relation depends on in `ti_field_make_assignable`. -/
def plainAssign (F : Field) (r : Rval φ) : Except Ex (Collection φ × Val) :=
  match F.base, r.get c with
  | .plain .any, .arr _ vec => varrAssign E T c F r vec
  | .plain .any, .set imap => vsetAssign E T c F r imap
  | .plain .any, .future _ | .plain .any, .module _ =>
    .error (mismatch E F .typeError
      "allows `any` type with the exception of the `future` and `module` type")
  | .plain .object, .thing t =>
    if F.nested = .any then .ok (c, .thing t) else thingAssign E c F t
  | .plain .arr, .arr _ vec => varrAssign E T c F r vec
  | .plain .set, .set imap => vsetAssign E T c F r imap
  | _, v => checked c v (valueErr E c.kind F v)

/-- `ti_field_make_assignable`: the value to store, with what has changed elsewhere. -/
def makeAssignable (f : φ) (p : ℕ) (r : Rval φ) : Except Ex (Collection φ × Val) :=
  if T.rel f ≠ none then
    match (T.schema E).makeAssignable (things E c) (view c) f p (r.related E T c) with
    | .error e => .error e
    | .ok (s, imap) => .ok ({ c with vals := restore c T s }, ofImap (T.isSet f) imap)
  else if (T.field f).nillable ∧ (r.get c).tp = .nil then .ok (c, r.get c)
  else plainAssign E T c (T.field f) r

end Assignable

section Paths

variable (E : Env) (T : Types φ) (c : Collection φ)

/-- `ti_field_by_strn_e` -/
def fieldByStrn (type : TypeId) (name : Raw) : Except Ex φ :=
  match T.byName type name with
  | some f => .ok f
  | none =>
    .error (
      if E.nameIsValid name then
        ⟨.lookupError, "type `" ++ E.typeName type ++ "` has no property `" ++ E.text name ++ "`"⟩
      else ⟨.valueError, "property name must follow the naming rules" ++ docSee "overview/names"⟩)

/-- `ti_thing_t_set_val_from_strn` -/
def tSetVal (t : ℕ) (type : TypeId) (name : Raw) (r : Rval φ) : Except Ex (Collection φ) := do
  let f ← fieldByStrn E T type name
  let (c, v) ← makeAssignable E T c f t r
  return setField c f t v

/-- `ti_thing_o_set_val_from_valid_strn` -/
def oSetVal (t : ℕ) (spec : Spec) (name : Raw) (r : Rval φ) : Except Ex (Collection φ) :=
  if (r.get c).isSpec E c.kind spec then
    .ok (setProp c t name (valMakeAssignable (r.get c) r.shared))
  else .error ⟨.typeError, "restriction mismatch"⟩

/-- `ti_is_reserved_key_strn` -/
def isReservedKey : Raw → Bool
  | [b] => b >>> 4 = 2
  | _ => false

/-- `ti_thing_o_set_val_from_strn` -/
def oSetKey (t : ℕ) (spec : Spec) (key : Raw) (r : Rval φ) : Except Ex (Collection φ) := do
  let c' ← oSetVal E c t spec key r
  if E.nameIsValid key then return c'
  else if !E.isUtf8 key then
    .error ⟨.valueError, "properties must have valid UTF-8 encoding"⟩
  else if isReservedKey key then
    .error ⟨.valueError, "property `" ++ E.text key ++ "` is reserved" ++
      docSee "overview/properties"⟩
  else return c'

/-- `ti_opr_a_to_b` for the value of a field. The result is stored as it is; only a set
has been checked, and its relations are made. -/
def tUpdate (t : ℕ) (f : φ) (opr : OprToken) (b : Val) : Option (Except Ex (Collection φ)) :=
  let S := T.schema E
  (Opr.aToB E (fun t => (c.kind t).type?) (S.vsetPreAssignCheck (things E c) f t)
    (c.vals f t) b opr).map fun
    | .error e => .error e
    | .ok (.set imap) =>
      .ok (setField { c with vals := restore c T (S.relate (view c) f t imap) } f t (.set imap))
    | .ok v => .ok (setField c f t v)

/-- `ti_opr_a_to_b` for a property of a thing without type. -/
def oUpdate (t : ℕ) (key : Raw) (a : Val) (opr : OprToken) (b : Val) :
    Option (Except Ex (Collection φ)) :=
  (Opr.aToB E (fun t => (c.kind t).type?) (fun _ _ => none) a b opr).map fun
    | .error e => .error e
    | .ok v => .ok (setProp c t key v)

/-- The errors for a property which is not found, by name and by index. -/
structure NotFound where
  object : Ex
  typed : TypeId → Ex

/-- The errors of `do__o_get_wprop` and `do__t_upd_prop`. -/
def nameNotFound (t : ℕ) (name : Raw) : NotFound where
  object := ⟨.lookupError,
    "thing `#" ++ toString (c.id t) ++ "` has no property `" ++ E.text name ++ "`"⟩
  typed type := ⟨.lookupError,
    "type `" ++ E.typeName type ++ "` has no property `" ++ E.text name ++ "`"⟩

/-- `ti_thing_o_set_not_found` and `ti_thing_t_set_not_found` -/
def keyNotFound (t : ℕ) (key : Raw) : NotFound where
  object :=
    if E.isUtf8 key then (nameNotFound E c t key).object
    else ⟨.valueError, "properties must have valid UTF-8 encoding"⟩
  typed type :=
    if E.nameIsValid key then
      ⟨.lookupError, "type `" ++ E.typeName type ++ "` has no property or method `" ++
        E.text key ++ "`"⟩
    else ⟨.valueError, "type keys must follow the naming rules" ++ docSee "overview/names"⟩

/-- `do__upd_prop` and `index__upd_prop` -/
def updProp (t : ℕ) (key : Raw) (opr : OprToken) (b : Val) (notFound : NotFound) :
    Option (Except Ex (Collection φ)) :=
  match c.kind t with
  | .object _ =>
    match (c.props t).lookup key with
    | some a => oUpdate E c t key a opr b
    | none => some (.error notFound.object)
  | .instance type =>
    match T.byName type key with
    | some f => tUpdate E T c t f opr b
    | none => some (.error (notFound.typed type))

/-- `do__name_assign` with an operator, or with `=`. -/
def nameAssign (x : Val) (name : Raw) (opr : Option OprToken) (r : Rval φ) :
    Option (Except Ex (Collection φ)) :=
  match x, opr with
  | .thing t, some opr => updProp E T c t name opr (r.get c) (nameNotFound E c t name)
  | .thing t, none =>
    match c.kind t with
    | .object spec => some (oSetVal E c t spec name r)
    | .instance type => some (tSetVal E T c t type name r)
  | x, _ =>
    some (.error ⟨.typeError, "cannot assign properties to `" ++ x.typeStr E c.kind ++ "` type"⟩)

/-- `index__set` with an operator, or with `=`. -/
def indexSet (t : ℕ) (key : Val) (opr : Option OprToken) (r : Rval φ) :
    Option (Except Ex (Collection φ)) :=
  if !key.isStr then
    some (.error ⟨.typeError, "expecting an index of type `str` but got type `" ++
      key.typeStr E c.kind ++ "` instead"⟩)
  else
    match opr, c.kind t with
    | some opr, _ => updProp E T c t key.data opr (r.get c) (keyNotFound E c t key.data)
    | none, .object spec => some (oSetKey E c t spec key.data r)
    | none, .instance type => some (tSetVal E T c t type key.data r)

end Paths

/-- What an index applies to: a property, or a value which is not one. -/
inductive Place where
  | val (v : Val)
  | prop (t : ℕ) (name : Raw)

inductive Index where
  | at (idx : Val)
  | slice (start stop step : Option Val)

section Index

variable (E : Env) (T : Types φ) (c : Collection φ)

/-- The value, with `ti_varr_spec`. -/
def Place.get : Place → Except Ex (Spec × Val)
  | .val v => .ok (.any, v)
  | .prop t name =>
    match c.kind t with
    | .object _ =>
      match (c.props t).lookup name with
      | some v => .ok (.any, v)
      | none => .error (nameNotFound E c t name).object
    | .instance type =>
      match T.byName type name with
      | some f => .ok ((T.field f).nested, c.vals f t)
      | none =>
        .error ⟨.lookupError, "type `" ++ E.typeName type ++ "` has no property or method `" ++
          E.text name ++ "`"⟩

def Place.put (v : Val) : Place → Collection φ
  | .val _ => c
  | .prop t name =>
    match c.kind t with
    | .object _ => setProp c t name v
    | .instance type =>
      match T.byName type name with
      | some f => setField c f t v
      | none => c

/-- The value is the list which is at the place. -/
def Place.isOwn : Place → Rval φ → Bool
  | .prop t name, .key p name' => t = p ∧ name = name'
  | .prop t name, .prop p f =>
    match c.kind t with
    | .object _ => false
    | .instance type => t = p ∧ T.byName type name = some f
  | _, _ => false

/-- `index__array_ass` and `index__slice_ass` -/
def listAss (spec : Spec) (l : Lists.Varr) (opr : Option OprToken) (v : Val) (own : Bool) :
    Index → Option Lists.Outcome
  | .at idx => Lists.arrayAss E c.kind spec l (.ok idx) opr (.ok v)
  | .slice start stop step =>
    Lists.sliceAss E c.kind l (start.map .ok) (stop.map .ok) (step.map .ok) opr
      (if own then .own else .val (.ok v))

/-- The errors of `ti_index`. -/
def indexError (v : Val) (i : Index) : Ex :=
  if v.isStr ∨ v.tp = .bytes ∨ v.tp = .arr then
    ⟨.typeError, "type `" ++ v.typeStr E c.kind ++ "` does not support index assignments"⟩
  else
    match i with
    | .at _ => ⟨.typeError, "type `" ++ v.typeStr E c.kind ++ "` is not indexable"⟩
    | .slice _ _ _ => ⟨.typeError, "type `" ++ v.typeStr E c.kind ++ "` has no slice support"⟩

/-- `ti_index` with an assignment. -/
def index (x : Place) (i : Index) (opr : Option OprToken) (r : Rval φ) :
    Option (Except Ex (Collection φ)) :=
  match x.get E T c, i with
  | .error e, _ => some (.error e)
  | .ok (_, .thing t), .at key => indexSet E T c t key opr r
  | .ok (spec, .arr flags vec), i =>
    if flags.tuple then some (.error (indexError E c (.arr flags vec) i))
    else (listAss E c spec ⟨flags, vec⟩ opr (r.get c) (x.isOwn T c r) i).map fun o =>
      o.rval.map fun _ => x.put T c (.arr o.varr.flags o.varr.vec)
  | .ok (_, v), i => some (.error (indexError E c v i))

end Index

section Exec

variable (E : Env) (T : Types φ) (c : Collection φ)

/-- `do__f_to_thing`. The values become properties, by the names of the fields. -/
def toThing (t : ℕ) (type : TypeId) (nargs : ℕ) : Except Ex (Collection φ) :=
  if nargs ≠ 0 then .error (nargsError "to_thing" (docSee "data-types/typed/to_thing") 0 nargs)
  else if T.inUse type then
    .error ⟨.operation, "conversion `to_thing` has failed; type `" ++ E.typeName type ++
      "` is used as restriction and therefore ThingsDB is not able to guarantee the typed " ++
      "thing can be converted"⟩
  else
    .ok { c with
      kind := Function.update c.kind t (.object .any)
      props := Function.update c.props t
        ((T.fields type).map fun f => ((T.field f).name, c.vals f t)) }

inductive Op (φ : Type) where
  | nameAssign (x : Val) (name : Raw) (opr : Option OprToken) (r : Rval φ)
  | index (x : Place) (i : Index) (opr : Option OprToken) (r : Rval φ)
  | toThing (t : ℕ) (type : TypeId) (nargs : ℕ)

/-- The result is `none` when it is undefined, and for `to_thing` when the thing is not an
instance of the type. -/
def exec : Op φ → Option (Except Ex (Collection φ))
  | .nameAssign x name opr r => nameAssign E T c x name opr r
  | .index x i opr r => index E T c x i opr r
  | .toThing t type nargs =>
    if c.kind t = .instance type then some (toThing E T c t type nargs) else none

end Exec
end ThingsDB.Typed
