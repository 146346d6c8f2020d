import ThingsDB.Types.Pack
import ThingsDB.Types.Render
import ThingsDB.Types.Lookup

/-!
# Renaming types and enumerators

`rename_type` and `rename_enum` write the new name into the declarations which name the type
or enumerator. The specifications stay as they are. A nested structure in which something has
changed is packed again from its fields.
-/

namespace ThingsDB.Types

/-- The words of `ti_spec_is_reserved`. -/
def reservedWords : List Text :=
  [
    ['a', 'n', 'o'],
    ['a', 'n', 'y'],
    ['b', 'i', 'g'],
    ['b', 'o', 'o', 'l'],
    ['b', 'r', 'e', 'a', 'k'],
    ['b', 'y', 't', 'e', 's'],
    ['c', 'a', 't', 'c', 'h'],
    ['c', 'l', 'o', 's', 'u', 'r', 'e'],
    ['c', 'o', 'n', 't', 'i', 'n', 'u', 'e'],
    ['d', 'a', 't', 'e'],
    ['d', 'a', 't', 'e', 't', 'i', 'm', 'e'],
    ['e', 'l', 's', 'e'],
    ['e', 'm', 'a', 'i', 'l'],
    ['e', 'n', 'u', 'm'],
    ['e', 'r', 'r', 'o', 'r'],
    ['f', 'a', 'l', 's', 'e'],
    ['f', 'i', 'n', 'a', 'l'],
    ['f', 'l', 'o', 'a', 't'],
    ['f', 'o', 'r'],
    ['f', 'u', 't', 'u', 'r', 'e'],
    ['i', 'f'],
    ['i', 'n'],
    ['i', 'n', 't'],
    ['i', 'n', 't', 'e', 'r', 'f', 'a', 'c', 'e'],
    ['l', 'i', 's', 't'],
    ['m', 'o', 'd', 'u', 'l', 'e'],
    ['m', 'p', 'd', 'a', 't', 'a'],
    ['n', 'i', 'l'],
    ['n', 'i', 'n', 't'],
    ['n', 'u', 'm', 'b', 'e', 'r'],
    ['p', 'i', 'n', 't'],
    ['r', 'a', 'w'],
    ['r', 'e', 'g', 'e', 'x'],
    ['r', 'e', 't', 'u', 'r', 'n'],
    ['r', 'o', 'o', 'm'],
    ['s', 'e', 't'],
    ['s', 't', 'r'],
    ['t', 'a', 's', 'k'],
    ['t', 'e', 'l'],
    ['t', 'h', 'i', 'n', 'g'],
    ['t', 'i', 'm', 'e'],
    ['t', 'i', 'm', 'e', 'd', 'e', 'l', 't', 'a'],
    ['t', 'i', 'm', 'e', 'v', 'a', 'l'],
    ['t', 'r', 'a', 'i', 't'],
    ['t', 'r', 'u', 'e'],
    ['t', 'r', 'y'],
    ['t', 'u', 'p', 'l', 'e'],
    ['t', 'y', 'p', 'e'],
    ['t', 'y', 'p', 'e', 'd'],
    ['u', 'i', 'n', 't'],
    ['u', 'n', 'i', 'o', 'n'],
    ['u', 'r', 'l'],
    ['u', 't', 'f', '8']
  ]

def isReserved (name : Text) : Bool := reservedWords.contains name

section Fields

variable (tgt : Target) (nname : Text)

/-- The new text of a field in `types__ren_cb`, if it names the type or enumerator. -/
def renText (text : Text) (data : Leaf) : Option Text :=
  if data.spec.target? = some tgt then
    match tgt, data.cond with
    | .enum _, .member _ member =>
      some (flagChars text ++ nname ++ ['{'] ++ member ++ ['}'] ++ optNil data.spec.nillable)
    | _, _ => some (flagChars text ++ nname ++ optNil data.spec.nillable)
  else if data.nested.target? = some tgt then
    let inner := nname ++ optNil data.nested.nillable
    match data.spec.code with
    | .plain .arr => some (flagChars text ++ ['['] ++ inner ++ [']'] ++ optNil data.spec.nillable)
    | .plain .set => some (flagChars text ++ ['{'] ++ inner ++ ['}'] ++ optNil data.spec.nillable)
    | .plain .object =>
      some (flagChars text ++ thingOpen ++ inner ++ ['>'] ++ optNil data.spec.nillable)
    -- only with corrupt data
    | _ => some (flagChars text ++ inner ++ ['_'] ++ optNil data.spec.nillable)
  else none

mutual

/-- `types__ren_cb` for one field, with the number of changes. -/
def Field.ren : Field → Field × ℕ
  | .leaf name text data =>
    match renText tgt nname text data with
    | some text => (.leaf name text data, 1)
    | none => (.leaf name text data, 0)
  | .nest name arr raw fields ano =>
    let r := renFields fields
    (.nest name arr raw r.1 ano, r.2)

def renFields : List Field → List Field × ℕ
  | [] => ([], 0)
  | f :: fs =>
    let r := f.ren
    let q := renFields fs
    (r.1 :: q.1, r.2 + q.2)

end

end Fields

/-- `spec_raw` of a field: its text, or the value which the packed data is read as. -/
def Field.declared : Field → Decl
  | .leaf _ text _ => .str text
  | .nest _ _ raw _ _ => raw

/-- A field of a type after `types__ren_cb`. Only here a nested structure is packed again, by
`ti_field_nested_to_mpdata`. -/
def Field.renamed (tgt : Target) (nname : Text) (f : Field) : Field :=
  match f.ren tgt nname with
  | (.leaf name text data, _) => .leaf name text data
  | (.nest name arr raw fields ano, changes) =>
    let g : Field := .nest name arr raw fields ano
    -- data which cannot be unpacked is not a declaration
    if 0 < changes then .nest name arr ((unpack g.toPk).getD (.other "mpdata")) fields ano else g

section Calls

variable (s : Schema) (tgt : Target) (nname : Text)

def TypeRec.ren (t : TypeRec) : TypeRec :=
  { t with
    name := if tgt = .type t.id then nname else t.name
    fields := t.fields.map (Field.renamed tgt nname) }

def EnumRec.ren (e : EnumRec) : EnumRec :=
  { e with name := if tgt = .enum e.id then nname else e.name }

/-- `ti_types_ren_spec`, together with the name itself. -/
def Schema.ren : Schema :=
  { s with
    types := s.types.map (TypeRec.ren tgt nname), enums := s.enums.map (EnumRec.ren tgt nname) }

def Schema.newNameErr : Option CallError :=
  if !isName nname then some .invalidName
  else if isReserved nname then some (.reserved nname)
  else if (s.byName nname).isSome then some (.typeExists nname)
  else if (s.enumByName nname).isSome then some (.enumExists nname)
  else none

/-- `do__f_rename_type`. A type which was deleted with the new name gets the old one in
`removed`. -/
def Schema.renameType (oname : Text) : Schema × Option CallError :=
  match s.byName oname with
  | none => (s, some (.notFound oname))
  | some t =>
    match s.newNameErr nname with
    | some e => (s, some e)
    | none =>
      let s' := s.ren (.type t.id) nname
      match s.removed nname with
      | none => (s', none)
      | some id =>
        ({ s' with
          removed := Function.update (Function.update s.removed nname none) t.name (some id) },
            none)

def Schema.renameEnum (oname : Text) : Schema × Option CallError :=
  match s.enumByName oname with
  | none => (s, some (.notFound oname))
  | some e =>
    match s.newNameErr nname with
    | some e => (s, some e)
    | none => (s.ren (.enum e.id) nname, none)

end Calls

end ThingsDB.Types
