import ThingsDB.Opr.Laws
import ThingsDB.Util.Vec

/-!
# Enumerators

`ti_enum_t` with its members and methods, and what `set_enum` and `mod_enum` do with them. A member
is an object of its own, to which both the list of members and the map of names point; it is kept by
its address. Values are at addresses too, since things are equal by their address. Where the
equality of two values depends on other memory, its result is any.
-/

namespace ThingsDB.Enums

open Util Opr

/-- `ti_enum_enum` -/
inductive EnumTp where
  | int
  | float
  | str
  | bytes
  | thing
  deriving DecidableEq, Repr

/-- `ti_enum_str_map` -/
def EnumTp.name : EnumTp → String
  | int => "int"
  | float => "float"
  | str => "str"
  | bytes => "bytes"
  | thing => "thing"

/-- The switch of `ti_enum_set_enum_tp`. -/
def EnumTp.ofTp : Tp → Option EnumTp
  | .int => some .int
  | .float => some .float
  | .name | .str => some .str
  | .bytes => some .bytes
  | .thing => some .thing
  | _ => none

/-- The switch of `enum__check_val`. -/
def EnumTp.has : EnumTp → Val → Bool
  | int, v => v.tp = .int
  | float, v => v.tp = .float
  | str, v => v.isStr
  | bytes, v => v.tp = .bytes
  | thing, v => v.tp = .thing

/-- `ti_member_t` -/
structure Member where
  name : Raw
  val : Obj
  idx : ℕ

/-- `ti_method_t` -/
structure Method where
  name : Raw
  closure : Raw
  deriving DecidableEq

/-- `ti_enum_t`. The type is not set before the first member; no member is at `next` or above. -/
structure EnumRec where
  name : Raw
  tp : Option EnumTp
  members : List ℕ
  methods : List Method
  smap : Raw → Option ℕ
  heap : ℕ → Member
  next : ℕ

def vecSwap {α : Type} (l : List α) (i j : ℕ) : List α :=
  match l[i]?, l[j]? with
  | some x, some y => (l.set i y).set j x
  | _, _ => l

namespace EnumRec

def create (name : Raw) : EnumRec := ⟨name, none, [], [], fun _ => none, fun _ => ⟨[], .leaf 0 .nil
  (by decide), 0⟩, 0⟩

def getMethod (e : EnumRec) (name : Raw) : Option Method := e.methods.find? fun x => x.name = name

def put (e : EnumRec) (m : ℕ) (f : Member → Member) : EnumRec :=
  { e with heap := Function.update e.heap m (f (e.heap m)) }

def delMember (e : EnumRec) (m : ℕ) : EnumRec :=
  let idx := (e.heap m).idx
  let e' := { e with
    members := vecSwapRemove e.members idx
    smap := Function.update e.smap (e.heap m).name none }
  match e'.members[idx]? with
  | some swap => e'.put swap fun x => { x with idx := idx }
  | none => e'

def memberDef (e : EnumRec) (m : ℕ) : EnumRec :=
  match e.members.head? with
  | none => e
  | some tmp =>
    let idx := (e.heap m).idx
    let e' := (e.put tmp fun x => { x with idx := idx }).put m fun x => { x with idx := 0 }
    { e' with members := vecSwap e.members 0 idx }

def removeMethod (e : EnumRec) (name : Raw) : EnumRec :=
  match e.methods.findIdx? fun x => x.name = name with
  | some i => { e with methods := vecSwapRemove e.methods i }
  | none => e

def putMethod (e : EnumRec) (name : Raw) (f : Method → Method) : EnumRec :=
  match e.methods.findIdx? fun x => x.name = name with
  | some i => { e with methods := e.methods.modify i f }
  | none => e

end EnumRec

section Checks

variable (E : Env) (typeOf : ℕ → Option TypeId) (junk : Obj → Obj → Bool)

/-- `ti_opr_eq` -/
def same (a b : Obj) : Bool := (eq a b).getD (junk a b)

namespace EnumRec

variable (e : EnumRec)

def existsErr (name : Raw) : Ex :=
  ⟨.valueError, "member or method `" ++ E.text name ++ "` already exists on enum `" ++
    E.text e.name ++ "`"⟩

def known (name : Raw) : Bool := (e.smap name).isSome || (e.getMethod name).isSome

def memberByVal (v : Obj) : Option ℕ := e.members.find? fun m => same junk (e.heap m).val v

/-- `enum__check_val` -/
def checkTp (v : Obj) : Option Ex :=
  if e.tp.any fun tp => tp.has v.val then none
  else some ⟨.typeError, "enumerators must not contain members of mixed types; got both type `" ++
    (e.tp.map EnumTp.name).getD "" ++ "` and `" ++ v.val.valStr E typeOf ++ "` for enum `" ++
    E.text e.name ++ "`"⟩

def checkVal (v : Obj) : Option Ex :=
  match e.memberByVal junk v with
  | some m => some ⟨.valueError,
      "enum values must be unique; the given value is already used by `" ++ E.text e.name ++
        "\x7b" ++ E.text (e.heap m).name ++ "\x7d`"⟩
  | none => e.checkTp E typeOf v

def setEnumTp (v : Obj) : EnumRec × Option Ex :=
  match EnumTp.ofTp v.val.tp with
  | some tp => ({ e with tp := some tp }, none)
  | none => (e, some ⟨.typeError, "failed to create enum type `" ++ E.text e.name ++
      "`; enumerators cannot be created for values with type `" ++ v.val.valStr E typeOf ++ "`"⟩)

def addMember (name : Raw) (v : Obj) : EnumRec × Option Ex :=
  if e.members.length = 0xffff then
    (e, some ⟨.maxQuota, "maximum number of enum members has been reached"⟩)
  else if (e.smap name).isSome then (e, some ⟨.memory, "memory allocation error"⟩)
  else
    ({ e with
        members := e.members ++ [e.next]
        smap := Function.update e.smap name (some e.next)
        heap := Function.update e.heap e.next ⟨name, v, e.members.length⟩
        next := e.next + 1 }, none)

def memberCreate (name : Raw) (v : Obj) : EnumRec × Option Ex :=
  if e.known name then (e, some (e.existsErr E name))
  else
    match if e.members = [] then e.setEnumTp E typeOf v else (e, e.checkVal E typeOf junk v) with
    | (e', none) => e'.addMember name v
    | (e', some ex) => (e', some ex)

def addMethod (name closure : Raw) : EnumRec × Option Ex :=
  if e.known name then (e, some (e.existsErr E name))
  else ({ e with methods := e.methods ++ [⟨name, closure⟩] }, none)

def setValue (m : ℕ) (v : Obj) : EnumRec × Option Ex :=
  match e.checkVal E typeOf junk v with
  | some ex => (e, some ex)
  | none => (e.put m fun x => { x with val := v }, none)

def setName (m : ℕ) (name : Raw) : EnumRec × Option Ex :=
  if !E.nameIsValid name then
    (e, some ⟨.valueError, "member name must follow the naming rules"⟩)
  else if (e.getMethod name).isSome then (e, some (e.existsErr E name))
  else if (e.smap name).isSome then (e, some (e.existsErr E name))
  else
    let smap := Function.update e.smap name (some m)
    ({ e.put m fun x => { x with name := name } with
        smap := Function.update smap (e.heap m).name none }, none)

/-- `ti_method_set_name_e` -/
def methodSetName (old name : Raw) : EnumRec × Option Ex :=
  if !E.nameIsValid name then
    (e, some ⟨.valueError, "method name must follow the naming rules"⟩)
  else if e.known name then (e, some (e.existsErr E name))
  else (e.putMethod old fun x => { x with name := name }, none)

end EnumRec

end Checks

section Calls

variable (E : Env) (typeOf : ℕ → Option TypeId) (junk : Obj → Obj → Bool)
  (closureErr : Raw → Option Ex)

/-- The second argument of `mod_enum`, with what follows the name. Whether the member of a `del` has
other references is known to the call. -/
inductive Mod where
  | add (v : Obj)
  | defMember
  | del (inUse : Bool)
  | mod (v : Obj)
  | ren (v : Obj)
  | other (rmod : Raw)

namespace EnumRec

variable (e : EnumRec) (name : Raw)

def noMember (what : String) : Ex :=
  ⟨.lookupError, "enum `" ++ E.text e.name ++ "` has no " ++ what ++ " `" ++ E.text name ++ "`"⟩

/-- `enum__add` -/
def modAdd (v : Obj) : EnumRec × Option Ex :=
  match v.val with
  | .closure text =>
    match closureErr text with
    | some ex => (e, some ex)
    | none => e.addMethod E name text
  | _ => e.memberCreate E typeOf junk name v

/-- `enum__def` -/
def modDef : EnumRec × Option Ex :=
  match e.smap name with
  | none => (e, some (e.noMember E name "member"))
  | some m => if (e.heap m).idx = 0 then (e, none) else (e.memberDef m, none)

/-- `enum__del` -/
def modDel (inUse : Bool) : EnumRec × Option Ex :=
  match e.smap name with
  | some m =>
    if e.members.length = 1 then
      (e, some ⟨.lookupError, "cannot delete `" ++ E.text e.name ++ "\x7b" ++ E.text name ++
        "\x7d` as this is the last enum member"⟩)
    else if inUse then
      (e, some ⟨.operation, "enum member `" ++ E.text e.name ++ "\x7b" ++ E.text name ++
        "\x7d` is still in use"⟩)
    else (e.delMember m, none)
  | none =>
    if (e.getMethod name).isSome then (e.removeMethod name, none)
    else (e, some (e.noMember E name "member or method"))

/-- The part of `enum__mod` for a member. -/
def modMember (m : ℕ) (v : Obj) : EnumRec × Option Ex :=
  if same junk (e.heap m).val v then (e, none)
  else if v.val.tp = .closure then
    (e, some ⟨.typeError, "cannot convert a member into a method"⟩)
  else e.setValue E typeOf junk m v

/-- The part of `enum__mod` for a method. -/
def modMethod (v : Obj) : EnumRec × Option Ex :=
  match v.val with
  | .closure text =>
    match closureErr text with
    | some ex => (e, some ex)
    | none => (e.putMethod name fun x => { x with closure := text }, none)
  | _ => (e, some ⟨.typeError, "cannot convert a method into a member"⟩)

/-- `enum__mod` -/
def modMod (v : Obj) : EnumRec × Option Ex :=
  match e.smap name with
  | some m => e.modMember E typeOf junk m v
  | none =>
    if (e.getMethod name).isSome then e.modMethod closureErr name v
    else (e, some (e.noMember E name "member or method"))

def renArgErr (v : Obj) : Ex :=
  ⟨.typeError, "function `mod_enum` with task `ren` expects argument 4 to be of type `str` but " ++
    "got type `" ++ v.val.valStr E typeOf ++ "` instead"⟩

/-- `enum__ren` -/
def modRen (v : Obj) : EnumRec × Option Ex :=
  if !e.known name then (e, some (e.noMember E name "member or method"))
  else if !v.val.isStr then (e, some (renArgErr E typeOf v))
  else if name = v.val.data then (e, none)
  else
    match e.smap name with
    | some m => e.setName E m v.val.data
    | none => e.methodSetName E name v.val.data

/-- `do__f_mod_enum`, after the enumerator is found. -/
def modEnum : Mod → EnumRec × Option Ex
  | .add v => e.modAdd E typeOf junk closureErr name v
  | .defMember => e.modDef E name
  | .del inUse => e.modDel E name inUse
  | .mod v => e.modMod E typeOf junk closureErr name v
  | .ren v => e.modRen E typeOf name v
  | .other rmod => (e, some ⟨.valueError, "function `mod_enum` expects argument 2 to be `add`, " ++
      "`del`, `mod` or `ren` but got `" ++ E.text rmod ++ "` instead"⟩)

end EnumRec

/-- A property or an item of a thing; the key of an item need not be a name. -/
structure Item where
  key : Val
  val : Obj

/-- A closure is a method, anything else the value of a member. -/
def EnumRec.initItem (e : EnumRec) (name : Raw) (v : Obj) : EnumRec × Option Ex :=
  match v.val with
  | .closure text => e.addMethod E name text
  | _ => e.memberCreate E typeOf junk name v

/-- The loops of `enum__init_thing_o` and of `enum__init_thing_t`. -/
def EnumRec.initItems (e : EnumRec) : List Item → EnumRec × Option Ex
  | [] => (e, none)
  | item :: items =>
    if item.key.tp ≠ .name then
      (e, some ⟨.valueError, "enum member must follow the naming rules"⟩)
    else
      match e.initItem E typeOf junk item.key.data item.val with
      | (e', none) => e'.initItems items
      | (e', some ex) => (e', some ex)

def EnumRec.initFromThing (e : EnumRec) (items : List Item) : EnumRec × Option Ex :=
  if items = [] then (e, some ⟨.valueError, "cannot create an empty enum type"⟩)
  else e.initItems E typeOf junk items

/-- The enumerators of a collection by their names, with their number. -/
structure Coll where
  byName : Raw → Option EnumRec
  n : ℕ

/-- The calls, with arguments which are evaluated; an enumerator is locked meanwhile. -/
inductive Call where
  | setEnum (name : Raw) (items : List Item)
  | modEnum (enum name : Raw) (mod : Mod)

variable (reserved hasType : Raw → Bool) (s : Coll)

/-- The checks of `do__f_set_enum`. -/
def setEnumErr (name : Raw) : Option Ex :=
  if !E.nameIsValid name then
    some ⟨.valueError, "function `set_enum` expects argument 1 to be a valid enum name"⟩
  else if reserved name then some ⟨.valueError, "name `" ++ E.text name ++ "` is reserved"⟩
  else if (s.byName name).isSome then
    some ⟨.lookupError, "enum `" ++ E.text name ++ "` already exists"⟩
  else if hasType name then some ⟨.lookupError, "type `" ++ E.text name ++ "` already exists"⟩
  else if s.n = 0x1fff then some ⟨.maxQuota, "reached the maximum number of enumerators"⟩
  else none

/-- `do__f_set_enum`; the enumerator is removed if it cannot be made. -/
def setEnum (name : Raw) (items : List Item) : Coll × Option Ex :=
  match setEnumErr E reserved hasType s name with
  | some ex => (s, some ex)
  | none =>
    match (EnumRec.create name).initFromThing E typeOf junk items with
    | (e, none) => (⟨Function.update s.byName name (some e), s.n + 1⟩, none)
    | (_, some ex) => (s, some ex)

/-- The error of `ti_raw_err_not_found`. -/
def notFound (name : Raw) : Ex :=
  if !E.nameIsValid name then ⟨.valueError, "enum name must follow the naming rules"⟩
  else ⟨.lookupError, "enum `" ++ E.text name ++ "` not found"⟩

/-- The error of `fn_arg_name_check`. -/
def argNameErr (argn : ℕ) : Ex :=
  ⟨.valueError, "function `mod_enum` expects argument " ++ toString argn ++
    " to follow the naming rules"⟩

def Mod.word? : Mod → Option Raw
  | .other rmod => some rmod
  | _ => none

def modEnum (enum name : Raw) (mod : Mod) : Coll × Option Ex :=
  match s.byName enum with
  | none => (s, some (notFound E enum))
  | some e =>
    if mod.word?.any fun rmod => !E.nameIsValid rmod then (s, some (argNameErr 2))
    else if !E.nameIsValid name then (s, some (argNameErr 3))
    else
      let r := e.modEnum E typeOf junk closureErr name mod
      (⟨Function.update s.byName enum (some r.1), s.n⟩, r.2)

def call : Call → Coll × Option Ex
  | .setEnum name items => setEnum E typeOf junk reserved hasType s name items
  | .modEnum enum name mod => modEnum E typeOf junk closureErr s enum name mod

def calls : Coll → List Call → Coll
  | s, [] => s
  | s, c :: cs => calls (call E typeOf junk closureErr reserved hasType s c).1 cs

end Calls

end ThingsDB.Enums
