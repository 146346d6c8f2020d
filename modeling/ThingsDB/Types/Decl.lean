import ThingsDB.Ex
import ThingsDB.Spec

/-!
# Declarations of fields

The text of a declaration as the first part of `field__init` reads it: the flags, the `?`
at the end, the brackets of a list, a set or a restricted thing with the `?` inside of them,
and the word which is left. What the word means depends on the types and the enumerators.
-/

namespace ThingsDB.Types

/-- The text of a declaration, of a name or of a closure. -/
abbrev Text : Type := List Char

def Text.str (s : Text) : String := String.ofList s

/-- The flags of a field. `deep` is set if neither `minDeep` nor `maxDeep` is. -/
inductive Flag where
  | sameDeep
  | minDeep
  | maxDeep
  | deep
  | ename
  | noIds
  | skipNil
  | skipFalse
  deriving DecidableEq, Repr

/-- The errors of `field__init` and of the functions around it. -/
inductive DeclError where
  | empty
  | missing
  | conflict
  | duplicate
  | invalid (s : Text)
  | nonAscii
  | nestedPattern
  | nestedRange
  | nestedArr
  | nestedSet
  | enumDefaultIn (what : String) (enum : Text)
  | enumDefaultEmpty
  | noMember (member enum : Text)
  | unknownType (word : Text)
  | setEnum (enum : Text)
  | circular (s : Text)
  | selfrefs
  | wrapOnlyDep
  | setNillable
  | setType (word : Text)
  | skipNil
  /-- The error of a pattern, of a range or of a closure. -/
  | cond (e : Ex)
  | listSize (n : ℕ)
  | listElem (tp : String)
  | notWrapOnly
  | multipleIds
  | noDefinition (wrapOnly : Bool) (tp : String)
  /-- Only with corrupt data. -/
  | corrupt
  /-- The check for circular dependencies does not return. -/
  | diverges
  deriving DecidableEq, Repr

/-- The number and the text of an error for a field of a type. -/
def DeclError.ex (field type : Text) : DeclError → Option Ex :=
  let on (nr : ExEnum) (text : String) : Option Ex :=
    some ⟨nr, "invalid declaration for `" ++ field.str ++
      "` on type `" ++ type.str ++ "`; " ++ text⟩
  fun
  | empty => on .valueError "type declarations must not be empty"
  | missing => on .valueError "missing declaration after flags"
  | conflict => on .valueError "conflicting flags `-` and `+`"
  | duplicate => on .valueError "duplicate flags"
  | invalid s =>
    on .valueError ("expecting a valid type declaration but got `" ++ s.str ++ "` instead")
  | nonAscii => on .valueError "type declarations must only contain valid ASCII characters"
  | nestedPattern => on .valueError "nested pattern conditions are not allowed"
  | nestedRange => on .valueError "nested range conditions are not allowed"
  | nestedArr => on .valueError "unexpected `[`; nested array declarations are not allowed"
  | nestedSet => on .valueError "unexpected `\x7b`; nested set declarations are not allowed"
  | enumDefaultIn what enum => on .typeError ("type `" ++ what ++ "` cannot contain enum type `" ++
      enum.str ++ if what = "set" then "`" else "` with a default value")
  | enumDefaultEmpty => on .typeError ("if you want the default enum member, remove the curly " ++
      "brackets `\x7b\x7d` from the definition")
  | noMember member enum => on .lookupError ("cannot find member `" ++ member.str ++
      "` on enum type `" ++ enum.str ++ "`")
  | unknownType word => on .typeError ("unknown type `" ++ word.str ++ "` in declaration")
  | setEnum enum => on .typeError ("type `set` cannot contain enum type `" ++ enum.str ++ "`")
  | circular s => on .valueError ("missing `?` after declaration `" ++ s.str ++ "`; circular " ++
      "dependencies must be nillable at least at one point in the chain")
  | selfrefs => on .maxQuota "maximum number of self references has been reached"
  | wrapOnlyDep => on .typeError ("when depending on a type in wrap-only mode, both types must " ++
      "have wrap-only mode enabled; either add a `?` to make the dependency nillable or make `" ++
      type.str ++ "` a wrap-only type as well")
  | setNillable => on .typeError "type `set` cannot contain a nillable type"
  | setType word => on .typeError ("type `set` cannot contain type `" ++ word.str ++ "`")
  | skipNil => on .typeError "skip nil flags for property which cannot contain nil"
  | cond e => some e
  | listSize n => some ⟨.valueError, "array with nested type must have exactly one element but " ++
      "found " ++ toString n ++ " on type `" ++ type.str ++ "`"⟩
  | listElem tp => some ⟨.typeError, "element in array must be of type `thing` but got type `" ++
      tp ++ "` instead; (happened on type `" ++ type.str ++ "`)"⟩
  | notWrapOnly => some ⟨.valueError,
      "defining nested types is only allowed for wrap-only type; (happened on type `" ++ type.str ++
        "`)"⟩
  | multipleIds => some ⟨.lookupError, "multiple Id ('#') definitions on type `" ++ type.str ++ "`"⟩
  | noDefinition wrapOnly tp => some ⟨.typeError,
      (if wrapOnly then "expecting a nested structure (`list` or `thing`), a method of type "
        else "expecting a method of type ") ++
      "`closure` or a definition of type `str` but got type `" ++ tp ++ "` instead"⟩
  | corrupt => some ⟨.internal, "internal error"⟩
  | diverges => none

/-- `strx_is_asciin` -/
def isAscii (s : Text) : Bool := s.all fun c => c.toNat < 128

def Flag.ofChar : Char → Option Flag
  | '&' => some .sameDeep
  | '-' => some .minDeep
  | '+' => some .maxDeep
  | '^' => some .noIds
  | '*' => some .ename
  | '?' => some .skipNil
  | '!' => some .skipFalse
  | _ => none

def readFlags : List Flag → Text → Except DeclError (List Flag × Text)
  | _, [] => .error .missing
  | flags, c :: s =>
    match Flag.ofChar c with
    | some f => if f ∈ flags then .error .duplicate else readFlags (flags ++ [f]) s
    | none => .ok (flags, c :: s)

inductive Outer where
  | plain
  | arr
  | set
  | restricted
  deriving DecidableEq, Repr

/-- A declaration without the meaning of its word. The word is empty for a list, a set or a
restricted thing of anything. -/
structure Scan where
  flags : List Flag
  nillable : Bool
  outer : Outer
  nestedNillable : Bool
  word : Text
  deriving DecidableEq, Repr

/-- A `?` at the end, which must not be all. -/
def splitNillable (s : Text) : Option (Bool × Text) :=
  if s.getLast? = some '?' then
    if s.dropLast = [] then none else some (true, s.dropLast)
  else some (false, s)

/-- `thing<` -/
def thingOpen : Text := ['t', 'h', 'i', 'n', 'g', '<']

def splitOuter (s : Text) : Option (Outer × Text) :=
  if s.head? = some '[' then
    if s.getLast? = some ']' then some (.arr, s.tail.dropLast) else none
  else if s.head? = some '{' then
    if s.getLast? = some '}' then some (.set, s.tail.dropLast) else none
  else if 7 ≤ s.length ∧ thingOpen <+: s then
    if s.getLast? = some '>' then some (.restricted, (s.drop 6).dropLast) else none
  else some (.plain, s)

/-- The label `invalid`. -/
def invalid (s : Text) : DeclError := if isAscii s then .invalid s else .nonAscii

def scanNested (s : Text) (sc : Scan) : Except DeclError Scan :=
  if sc.word = [] then .ok sc
  else
    match splitNillable sc.word with
    | none => .error (invalid s)
    | some (nillable, word) =>
      if word.head? = some '/' then .error .nestedPattern
      else if word.getLast? = some '>' then .error .nestedRange
      else if word.head? = some '[' then .error .nestedArr
      else if word.head? = some '{' then .error .nestedSet
      else .ok { sc with nestedNillable := nillable, word := word }

/-- With neither `-` nor `+`, the depth is as it is. -/
def withDeep (flags : List Flag) : List Flag :=
  if .minDeep ∈ flags ∨ .maxDeep ∈ flags then flags else .deep :: flags

def scan (s : Text) : Except DeclError Scan :=
  if s = [] then .error .empty
  else
    match readFlags [] s with
    | .error e => .error e
    | .ok (flags, t) =>
      if .minDeep ∈ flags ∧ .maxDeep ∈ flags then .error .conflict
      else
        match splitNillable t with
        | none => .error (invalid s)
        | some (nillable, t) =>
          match splitOuter t with
          | none => .error (invalid s)
          | some (.plain, word) => .ok ⟨withDeep flags, nillable, .plain, false, word⟩
          | some (outer, word) => scanNested s ⟨withDeep flags, nillable, outer, false, word⟩

def fieldMapping : List (Text × Base) :=
  [
    (['a', 'n', 'y'], .any),
    (['t', 'h', 'i', 'n', 'g'], .object),
    (['r', 'a', 'w'], .raw),
    (['s', 't', 'r'], .str),
    (['u', 't', 'f', '8'], .utf8),
    (['b', 'y', 't', 'e', 's'], .bytes),
    (['i', 'n', 't'], .int),
    (['u', 'i', 'n', 't'], .uint),
    (['p', 'i', 'n', 't'], .pint),
    (['n', 'i', 'n', 't'], .nint),
    (['f', 'l', 'o', 'a', 't'], .float),
    (['n', 'u', 'm', 'b', 'e', 'r'], .number),
    (['b', 'o', 'o', 'l'], .bool),
    (['[', ']'], .arr),
    (['{', '}'], .set),
    (['d', 'a', 't', 'e', 't', 'i', 'm', 'e'], .datetime),
    (['t', 'i', 'm', 'e', 'v', 'a', 'l'], .timeval),
    (['r', 'e', 'g', 'e', 'x'], .regex),
    (['c', 'l', 'o', 's', 'u', 'r', 'e'], .closure),
    (['e', 'r', 'r', 'o', 'r'], .error),
    (['r', 'o', 'o', 'm'], .room),
    (['t', 'a', 's', 'k'], .task),
    (['e', 'm', 'a', 'i', 'l'], .email),
    (['u', 'r', 'l'], .url),
    (['t', 'e', 'l'], .tel),
    (['e', 'n', 'u', 'm'], .enum)
  ]

/-- `ti_field_map_by_strn` -/
def fieldMap (word : Text) : Option Base := fieldMapping.lookup word

theorem mem_fieldMapping {word : Text} {b : Base} (h : fieldMap word = some b) :
    (word, b) ∈ fieldMapping := by
  obtain ⟨l₁, l₂, hsplit, -⟩ := List.lookup_eq_some_iff.mp h
  exact hsplit ▸ List.mem_append_right _ List.mem_cons_self

example : scan ['&', '[', 'A', '?', ']', '?'] =
    .ok ⟨[.deep, .sameDeep], true, .arr, true, ['A']⟩ := by decide

end ThingsDB.Types
