import ThingsDB.Lib.Descent
import ThingsDB.Types.Field
import ThingsDB.Util.Vec

/-!
# The types of a collection

`set_type`, `mod_type` and `del_type` on the types of a collection. What a call depends on
beside the types is part of the call: if there are instances of the type, if a value can be
assigned to a new field, and if the declaration of a field may be changed without a callback.
A callback does not change types.
-/

namespace ThingsDB.Types

open Util

/-- `ti_type_t` -/
structure TypeRec where
  id : TypeId
  name : Text
  wrapOnly : Bool
  fields : List Field
  deps : List Target
  selfref : ℕ
  idname : Option Text
  methods : List (Text × Text)

structure EnumRec where
  id : EnumId
  name : Text
  members : List Text

structure Schema where
  types : List TypeRec
  enums : List EnumRec
  refcount : Target → ℤ
  nextId : ℕ
  /-- The ids of types which are deleted, by name. -/
  removed : Text → Option TypeId

/-- The parts of a declaration which have a language of their own. -/
structure Lang where
  pattern : Text → Bool → Except Ex (CondSpec × Info)
  range : Text → Bool → Except Ex (CondSpec × Info)
  closureErr : Text → Option Ex

/-- The errors of the functions, beside those of a declaration. -/
inductive CallError where
  | decl (e : DeclError)
  | notFound (type : Text)
  | reserved (name : Text)
  | typeExists (name : Text)
  | enumExists (name : Text)
  | invalidName
  | maxTypes
  | hasFields
  | hasInstances
  | requiredByNonWpo
  | requiresWpo (field : Text)
  | inUse
  | exists (prop : Text)
  | missing (prop : Text)
  | idDefinition
  | noMethod
  | noProperty
  /-- `ti_field_mod` is called without a field, and the node crashes. -/
  | crash
  /-- The value for a new field, or the new declaration without a callback. -/
  | refused

section Lookup

variable (s : Schema)

def Schema.byId (id : TypeId) : Option TypeRec := s.types.find? fun t => t.id = id

/-- `ti_types_by_raw` -/
def Schema.byName (name : Text) : Option TypeRec := s.types.find? fun t => t.name = name

def Schema.enumByName (name : Text) : Option EnumRec := s.enums.find? fun e => e.name = name

def Schema.update (id : TypeId) (f : TypeRec → TypeRec) : Schema :=
  { s with types := s.types.map fun t => if t.id = id then f t else t }

def TypeRec.directs (t : TypeRec) : List TypeId := t.fields.filterMap fun f => f.spec.direct?

def Schema.directsOf (id : TypeId) : List TypeId := (s.byId id).elim [] TypeRec.directs

/-- `field__dep_check` of `dep` with a type, with a bound on the depth of the recursion. A type
without a name is not found, as no specification is equal to its id. -/
def Schema.depCheck (type : Option TypeId) (fuel : ℕ) (dep : TypeId) : Option Bool :=
  Descent.search s.directsOf (fun d => type = some d) fuel dep

/-- `ti_type_dval`: the number of things which are made for the default value of a type,
with a bound on the depth of the recursion. -/
def Schema.dval (fuel : ℕ) (id : TypeId) : Option ℕ := Descent.size s.directsOf fuel id

/-- What the declarations of a type are read with. -/
def Schema.env (L : Lang) (fuel : ℕ) : Env where
  typeByName name := (s.byName name).map TypeRec.id
  enumByName name := (s.enumByName name).map EnumRec.id
  hasMember id member := (s.enums.find? fun e => e.id = id).any fun e => e.members.contains member
  wrapOnly id := (s.byId id).any TypeRec.wrapOnly
  depCheck type := s.depCheck type fuel
  pattern := L.pattern
  range := L.range
  closureErr := L.closureErr

def Schema.requiredByNonWpo (id : TypeId) : Bool :=
  s.refcount (.type id) ≠ 0 && s.types.any fun t => !t.wrapOnly && t.directs.contains id

/-- `ti_type_requires_wpo`: the field which it is about. -/
def Schema.requiresWpo (t : TypeRec) : Option Field :=
  t.fields.find? fun f =>
    match f with
    | .nest .. => true
    | .leaf _ _ data =>
      match data.spec.direct? with
      | none => false
      | some d => d = t.id || (s.byId d).any TypeRec.wrapOnly

end Lookup

/-- `ti_name_is_valid_strn` -/
def isName (s : Text) : Bool :=
  match s with
  | [] => false
  | c :: cs => s.length ≤ 255 && (c.isAlpha || c = '_') && cs.all fun d => d.isAlphanum || d = '_'

/-- What a third argument of `set_type` says about wrap-only mode. -/
inductive WrapArg where
  | absent
  | flags (wpo : Bool)
  | bool (wpo : Bool)

def WrapArg.wpo : WrapArg → Bool
  | absent => false
  | flags b => b
  | bool b => b

/-- The mode of a type after `set_type`. -/
def WrapArg.mode (arg : WrapArg) (isNew old : Bool) : Bool :=
  match arg with
  | .bool b => b
  | _ => if arg.wpo ∨ isNew then arg.wpo else old

inductive Mod where
  /-- `assignable` tells if the default value and the callback can be used. -/
  | add (name : Text) (d : Decl) (assignable : Bool)
  /-- `compatible` is what `ti_spec_check_mod` finds. -/
  | mod (name : Text) (d : Decl) (compatible : Bool)
  | modCallback (name : Text) (s : Text)
  | del (name : Text)
  | ren (name newName : Text)
  | wpo (wpo : Bool) (instances : Bool)

inductive Call where
  | setType (name : Text) (props : Props) (arg : WrapArg) (instances : Bool)
  | modType (name : Text) (mod : Mod)
  | delType (name : Text)

section Calls

variable (L : Lang) (reserved : Text → Bool) (fuel : ℕ) (s : Schema)

def Schema.newId (name : Text) : Option TypeId :=
  match s.removed name with
  | some id => some id
  | none => if h : s.nextId < 0x4000 then some ⟨s.nextId, h⟩ else none

def TypeRec.counts (t : TypeRec) (rc : Target → ℤ) : Counts := ⟨t.deps, t.selfref, rc⟩

def TypeRec.build (t : TypeRec) (rc : Target → ℤ) : Build :=
  ⟨t.counts rc, t.fields, t.idname, t.methods⟩

def TypeRec.ctx (t : TypeRec) : Ctx := ⟨some t.id, t.name, t.wrapOnly⟩

/-- Write the counts of a type back, together with its fields. -/
def Schema.put (t : TypeRec) (c : Counts) (fields : List Field) : Schema :=
  { s.update t.id fun t => { t with deps := c.deps, selfref := c.selfref, fields := fields } with
    refcount := c.refcount }

def TypeRec.withMode (t : TypeRec) (wpo : Bool) : TypeRec := { t with wrapOnly := wpo }

/-- The declarations are read with the types as before the call. For `field__init` the type has the
fields before as well, but `field__dep_check` stops at the type (`depCheck_update`). For a nested
type, which has no name, it finds nothing, and it returns unless a wrap-only type names itself. -/
def Schema.initFromThing (t : TypeRec) (props : Props) : Schema × Option DeclError :=
  let r := initProps (s.env L fuel) t.ctx (t.build s.refcount) props
  let own (s : Schema) : Schema :=
    s.update t.id fun t => { t with idname := r.1.idname, methods := r.1.methods }
  match r.2 with
  | none => (own (s.put t r.1.counts r.1.fields), none)
  | some e => (own (s.put t (r.1.cleanup (some t.id)) []), some e)

def Schema.drop (id : TypeId) : Schema :=
  match s.byId id with
  | none => s
  | some t =>
    { s with
      types := s.types.filter fun u => u.id ≠ id
      refcount := dropConds t.fields (decAll t.deps s.refcount)
      removed := Function.update s.removed t.name (some id) }

/-- The part of `set_type` after the type is found or made. -/
def Schema.setFields (id : TypeId) (props : Props) (arg : WrapArg) (isNew instances : Bool) :
    Schema × Option CallError :=
  if instances then (s, some .hasInstances)
  else if arg.wpo ∧ s.requiredByNonWpo id then (s, some .requiredByNonWpo)
  else
    let s := s.update id fun t => t.withMode (arg.mode isNew t.wrapOnly)
    match s.byId id with
    | none => (s, some (.notFound []))
    | some t =>
      match s.initFromThing L fuel t props with
      | (s, none) => (s, none)
      | (s, some e) => (s, some (.decl e))

def TypeRec.new (id : TypeId) (name : Text) : TypeRec := ⟨id, name, true, [], [], 0, none, []⟩

def Schema.create (id : TypeId) (name : Text) : Schema :=
  { s with
    types := s.types ++ [.new id name]
    refcount := Function.update s.refcount (.type id) 0
    nextId := max s.nextId (id + 1)
    removed := Function.update s.removed name none }

def Schema.setType (name : Text) (props : Props) (arg : WrapArg) (instances : Bool) :
    Schema × Option CallError :=
  match s.byName name with
  | some t =>
    if t.fields ≠ [] then (s, some .hasFields)
    else s.setFields L fuel t.id props arg false instances
  | none =>
    if reserved name then (s, some (.reserved name))
    else if (s.enumByName name).isSome then (s, some (.enumExists name))
    else if !isName name then (s, some .invalidName)
    else
      match s.newId name with
      | none => (s, some .maxTypes)
      | some id =>
        if (s.byId id).isSome then (s, some .maxTypes)
        else
          match (s.create id name).setFields L fuel id props arg true instances with
          | (s, none) => (s, none)
          | (s, some e) => (s.drop id, some e)

def Schema.delType (name : Text) : Schema × Option CallError :=
  match s.byName name with
  | none => (s, some (.notFound name))
  | some t => if s.refcount (.type t.id) ≠ 0 then (s, some .inUse) else (s.drop t.id, none)

def TypeRec.known (t : TypeRec) (name : Text) : Bool :=
  t.idname = some name || t.fields.any (fun f => f.name = name) ||
    t.methods.any fun m => m.1 = name

/-- `type__add` -/
def Schema.modAdd (t : TypeRec) (name : Text) (d : Decl) (assignable : Bool) :
    Schema × Option CallError :=
  if t.known name then (s, some (.exists name))
  else
    let r := assign t.ctx (t.build s.refcount) name d
      (initDecl (s.env L fuel) t.ctx name (t.counts s.refcount) d)
    match r.2 with
    | some e => (s.put t r.1.counts t.fields, some (.decl e))
    | none =>
      -- the field which is made is the last one
      match r.1.fields.drop t.fields.length with
      | f :: _ =>
        if assignable then (s.put t r.1.counts r.1.fields, none)
        else (s.put t (r.1.counts.remove (some t.id) f) t.fields, some .refused)
      | [] =>
        (s.update t.id fun t => { t with idname := r.1.idname, methods := r.1.methods }, none)

def TypeRec.field? (t : TypeRec) (name : Text) : Option (ℕ × Field) :=
  match t.fields.findIdx? fun f => f.name = name with
  | none => none
  | some i => t.fields[i]?.map fun f => (i, f)

/-- The declarations which `type__mod` gives to a field. -/
def modDeclErr (t : TypeRec) : Decl → Option CallError
  | .str s => if s = ['#'] then some .idDefinition else none
  | .closure _ => some .noMethod
  | .many n => some (.decl (.listSize n))
  | .one (.thing _) | .thing _ => if t.wrapOnly then none else some (.decl .notWrapOnly)
  | .one d => some (.decl (.listElem d.tp))
  | .other _ => some .refused

def Schema.fieldMod (t : TypeRec) (i : ℕ) (f : Field) (d : Decl) (compatible : Bool) :
    Schema × Option CallError :=
  let c := (t.counts s.refcount).removeDep (some t.id) f
  match initDecl (s.env L fuel) t.ctx f.name c d with
  | (c, .error e) => (s.put t (c.addDep (some t.id) f) t.fields, some (.decl e))
  | (c, .ok g) =>
    if t.wrapOnly ∨ compatible then
      (s.put t { c with refcount := dropCond f c.refcount } (t.fields.set i g), none)
    else
      (s.put t ((c.remove (some t.id) g).addDep (some t.id) f) t.fields, some .refused)

/-- `type__mod` where no field has the name: a method gets another closure. -/
def Schema.methodMod (t : TypeRec) (name : Text) (d : Decl) : Schema × Option CallError :=
  if t.idname = some name then (s, some .idDefinition)
  else if !t.methods.any fun m => m.1 = name then (s, some (.missing name))
  else
    match d with
    | .closure text =>
      (s.update t.id fun t => { t with
        methods := t.methods.map fun m => if m.1 = name then (name, text) else m }, none)
    | .str _ => (s, some .noProperty)
    | d => (s, some ((modDeclErr t d).getD .crash))

/-- `type__mod_using_callback`: the new declaration is counted before the old one is removed. -/
def Schema.fieldModCallback (t : TypeRec) (i : ℕ) (f : Field) (text : Text) :
    Schema × Option CallError :=
  match initDecl (s.env L fuel) t.ctx f.name (t.counts s.refcount) (.str text) with
  | (c, .error e) => (s.put t c t.fields, some (.decl e))
  | (c, .ok g) => (s.put t (c.remove (some t.id) f) (t.fields.set i g), none)

/-- `type__del` -/
def Schema.modDel (t : TypeRec) (name : Text) : Schema × Option CallError :=
  if t.idname = some name then (s.update t.id fun t => { t with idname := none }, none)
  else
    match t.field? name with
    | some (i, f) =>
      (s.put t ((t.counts s.refcount).remove (some t.id) f) (vecSwapRemove t.fields i), none)
    | none =>
      if t.methods.any fun m => m.1 = name then
        (s.update t.id fun t => { t with methods := t.methods.filter fun m => m.1 ≠ name }, none)
      else (s, some (.missing name))

def Field.rename (name : Text) : Field → Field
  | .leaf _ text data => .leaf name text data
  | .nest _ arr raw fields ano => .nest name arr raw fields ano

/-- `type__ren` -/
def Schema.modRen (t : TypeRec) (name newName : Text) : Schema × Option CallError :=
  if !t.known name then (s, some (.missing name))
  else if newName = name then (s, none)
  else if !isName newName then (s, some .invalidName)
  else if t.known newName then (s, some (.exists newName))
  else
    match t.field? name with
    | some (i, _) =>
      (s.update t.id fun t => { t with fields := t.fields.modify i (Field.rename newName) }, none)
    | none =>
      if t.methods.any fun m => m.1 = name then
        (s.update t.id fun t => { t with
          methods := t.methods.map fun m => if m.1 = name then (newName, m.2) else m }, none)
      else (s.update t.id fun t => { t with idname := some newName }, none)

/-- `type__wpo` -/
def Schema.modWpo (t : TypeRec) (wpo instances : Bool) : Schema × Option CallError :=
  if wpo = t.wrapOnly then (s, none)
  else if wpo ∧ instances then (s, some .hasInstances)
  else if wpo ∧ s.requiredByNonWpo t.id then (s, some .requiredByNonWpo)
  else
    match if wpo then none else s.requiresWpo t with
    | some f => (s, some (.requiresWpo f.name))
    | none => (s.update t.id fun t => t.withMode wpo, none)

def Schema.modType (t : TypeRec) : Mod → Schema × Option CallError
  | .add name d assignable => s.modAdd L fuel t name d assignable
  | .mod name d compatible =>
    match t.field? name, modDeclErr t d with
    | none, _ => s.methodMod t name d
    | _, some e => (s, some e)
    | some (i, f), none => s.fieldMod L fuel t i f d compatible
  | .modCallback name text =>
    match t.field? name with
    | none => s.methodMod t name (.str text)
    | some (i, f) =>
      if t.wrapOnly ∨ text = ['#'] then (s, some .refused)
      else s.fieldModCallback L fuel t i f text
  | .del name => s.modDel t name
  | .ren name newName => s.modRen t name newName
  | .wpo wpo instances => s.modWpo t wpo instances

def Schema.call : Call → Schema × Option CallError
  | .setType name props arg instances => s.setType L reserved fuel name props arg instances
  | .modType name mod =>
    match s.byName name with
    | none => (s, some (.notFound name))
    | some t => s.modType L fuel t mod
  | .delType name => s.delType name

def Schema.step (c : Call) : Option Schema := some (s.call L reserved fuel c).1

end Calls

/-- The mode which `set_type` gives to the type with a name. -/
def Schema.modeFor (s : Schema) (name : Text) (arg : WrapArg) : Bool :=
  match s.byName name with
  | none => arg.mode true true
  | some t => arg.mode false t.wrapOnly

def noLang : Lang where
  pattern _ _ := .error ⟨.valueError, ""⟩
  range _ _ := .error ⟨.valueError, ""⟩
  closureErr _ := none

def Schema.empty : Schema := ⟨[], [], fun _ => 0, 0, fun _ => none⟩

end ThingsDB.Types
