import ThingsDB.Types.Decl

/-!
# Fields of types

`field__init` with the dependencies it counts, and what removes a dependency. A field with a
nested structure has a type of its own, which has no name; the dependencies of such a type
count as those of any other. The loops over dependencies are written as counts, as their
order is not important.
-/

namespace ThingsDB.Types

/-- An element of `dependencies`: a type or an enumerator. -/
inductive Target where
  | type (id : TypeId)
  | enum (id : EnumId)
  deriving DecidableEq, Repr

/-- A specification without `TI_SPEC_NILLABLE`. -/
inductive Code where
  | plain (b : Base)
  | rematch
  | intRange
  | floatRange
  | strRange
  | utf8Range
  /-- `TI_SPEC_TYPE` -/
  | anoType
  /-- `TI_SPEC_ARR_TYPE` -/
  | arrAnoType
  deriving DecidableEq, Repr

inductive CondSpec where
  | bool
  | rematch
  | intRange
  | floatRange
  | strRange
  | utf8Range
  deriving DecidableEq, Repr

def CondSpec.code : CondSpec → Code
  | bool => .plain .bool
  | rematch => .rematch
  | intRange => .intRange
  | floatRange => .floatRange
  | strRange => .strRange
  | utf8Range => .utf8Range

/-- `spec` and `nested_spec` of a field. -/
structure FSpec where
  code : Code
  nillable : Bool
  deriving DecidableEq, Repr

namespace FSpec

def any : FSpec := ⟨.plain .any, false⟩

/-- The value a specification starts with, which is also the one of the first type. -/
def zero : FSpec := ⟨.plain (.typeId 0), false⟩

def target? (s : FSpec) : Option Target :=
  match s.code with
  | .plain (.typeId i) => some (.type i)
  | .plain (.enumId i) => some (.enum i)
  | _ => none

/-- The type of a specification below `TI_SPEC_ANY`, so without `TI_SPEC_NILLABLE`. -/
def direct? (s : FSpec) : Option TypeId :=
  match s with
  | ⟨.plain (.typeId i), false⟩ => some i
  | _ => none

end FSpec

inductive Info where
  | re (pattern : Text) (dval : Val)
  | irange (mi ma : Int64) (dval : Val)
  | drange (mi ma : Float) (dval : Val)
  | srange (mi ma : ℕ) (dval : Val)
  | dval (dval : Val)

/-- `ti_condition_via_t` of a field which has no nested structure. -/
inductive Cond where
  | none
  | member (enum : EnumId) (name : Text)
  | info (i : Info)

/-- What `field__init` sets. -/
structure Leaf where
  spec : FSpec
  nested : FSpec
  flags : List Flag
  cond : Cond

mutual

inductive Decl where
  | str (s : Text)
  | closure (s : Text)
  | thing (props : Props)
  /-- A list with one element. -/
  | one (d : Decl)
  /-- A list with another number of elements. -/
  | many (n : ℕ)
  | other (tp : String)

inductive Props where
  | nil
  | cons (name : Text) (d : Decl) (rest : Props)

end

/-- `ti_val_str` -/
def Decl.tp : Decl → String
  | .str _ => "str"
  | .closure _ => "closure"
  | .thing _ => "thing"
  | .one _ | .many _ => "list"
  | .other tp => tp

/-- A type without a name, next to its fields. -/
structure Ano where
  deps : List Target
  idname : Option Text
  methods : List (Text × Text)
  hideId : Bool

inductive Field where
  | leaf (name : Text) (text : Text) (data : Leaf)
  | nest (name : Text) (arr : Bool) (raw : Decl) (fields : List Field) (ano : Ano)

namespace Field

def name : Field → Text
  | leaf name .. => name
  | nest name .. => name

def spec : Field → FSpec
  | leaf _ _ data => data.spec
  | nest _ arr .. => ⟨if arr then .arrAnoType else .anoType, true⟩

/-- A structure which is not in a list leaves `nested_spec` as it is. -/
def nested : Field → FSpec
  | leaf _ _ data => data.nested
  | nest _ arr .. => if arr then ⟨.anoType, false⟩ else .zero

/-- The dependency which `field__add_dep` and `field__remove_dep` are about. -/
def target? (f : Field) : Option Target :=
  match f.spec.target? with
  | some t => some t
  | none => f.nested.target?

end Field

/-- What a declaration is read with: the names, and the checks which need the types. -/
structure Env where
  typeByName : Text → Option TypeId
  enumByName : Text → Option EnumId
  hasMember : EnumId → Text → Bool
  wrapOnly : TypeId → Bool
  /-- `field__dep_check` of a type with the type of the field, if it returns. -/
  depCheck : Option TypeId → TypeId → Option Bool
  /-- `ti_condition_field_re_init` with the word and if the field is nillable. -/
  pattern : Text → Bool → Except Ex (CondSpec × Info)
  /-- `ti_condition_field_info_init` -/
  range : Text → Bool → Except Ex (CondSpec × Info)
  /-- The error of `ti_closure_from_strn`. -/
  closureErr : Text → Option Ex

/-- The type which a field is on. A type without a name has the name of the type it is
nested in. -/
structure Ctx where
  self : Option TypeId
  name : Text
  wrapOnly : Bool

/-- The dependencies and self references of the type which is worked on, and `refcount` of
all types and enumerators. -/
structure Counts where
  deps : List Target
  selfref : ℕ
  refcount : Target → ℤ

namespace Counts

def push (c : Counts) (t : Target) : Counts :=
  { c with deps := c.deps ++ [t], refcount := Function.update c.refcount t (c.refcount t + 1) }

def pop (c : Counts) (t : Target) : Counts :=
  { c with deps := c.deps.erase t, refcount := Function.update c.refcount t (c.refcount t - 1) }

/-- `++type->selfref`, which has 8 bits. -/
def incSelf (c : Counts) : Counts := { c with selfref := (c.selfref + 1) % 256 }

def decSelf (c : Counts) : Counts := { c with selfref := (c.selfref + 255) % 256 }

def addDep (c : Counts) (self : Option TypeId) (f : Field) : Counts :=
  match f.target? with
  | none => c
  | some t => if self.map .type = some t then c.incSelf else c.push t

def removeDep (c : Counts) (self : Option TypeId) (f : Field) : Counts :=
  match f.target? with
  | none => c
  | some t => if self.map .type = some t then c.decSelf else c.pop t

end Counts

/-- A decrement of `refcount` for each dependency. -/
def decAll (deps : List Target) (rc : Target → ℤ) : Target → ℤ := fun t => rc t - deps.count t

mutual

/-- `ti_condition_destroy`: the type of a nested structure is dropped with its fields. -/
def dropCond : Field → (Target → ℤ) → Target → ℤ
  | .leaf .., rc => rc
  | .nest _ _ _ fields ano, rc => dropConds fields (decAll ano.deps rc)

def dropConds : List Field → (Target → ℤ) → Target → ℤ
  | [], rc => rc
  | f :: fs, rc => dropConds fs (dropCond f rc)

end

/-- What `ti_field_remove` does to the counts. -/
def Counts.remove (c : Counts) (self : Option TypeId) (f : Field) : Counts :=
  let c := c.removeDep self f
  { c with refcount := dropCond f c.refcount }

section Text

variable (E : Env) (x : Ctx) (c : Counts) (s : Text) (sc : Scan)

def Outer.code : Outer → Option Code
  | .plain => none
  | .arr => some (.plain .arr)
  | .set => some (.plain .set)
  | .restricted => some (.plain .object)

/-- Set `*spec`, where `any` is never nillable. -/
def place (code : Code) : FSpec × FSpec :=
  match sc.outer.code with
  | none => (⟨code, sc.nillable && code ≠ .plain .any⟩, .any)
  | some outer => (⟨outer, sc.nillable⟩, ⟨code, sc.nestedNillable && code ≠ .plain .any⟩)

/-- The label `done`. -/
def done (spec : FSpec) : Option DeclError :=
  if .skipNil ∈ sc.flags ∧ ¬(spec.nillable ∨ spec = .any) then some .skipNil else none

/-- The numbers of the specifications which are no conditions. -/
def Code.num : Code → ℕ
  | .plain b => b.code
  | _ => 0x5000

def setErr (spec nested : FSpec) : Option DeclError :=
  if spec.code = .plain .set then
    if nested.nillable then some .setNillable
    else if Base.object.code < nested.code.num then some (.setType sc.word)
    else none
  else none

def setNested (spec nested : FSpec) : FSpec :=
  if spec.code = .plain .set ∧ nested.code = .plain .object then .any else nested

/-- The label `found`, with the last error of the two. -/
def found (code : Code) (cond : Cond) : Except DeclError Leaf :=
  let p := place sc code
  match done sc p.1, setErr sc p.1 p.2 with
  | some e, _ => .error e
  | none, some e => .error e
  | none, none => .ok ⟨p.1, setNested p.1 p.2, sc.flags, cond⟩

def initEnumDefault : Counts × Except DeclError Leaf :=
  let ename := sc.word.takeWhile (· ≠ '{')
  let member := (sc.word.drop (ename.length + 1)).dropLast
  match if ename.length < sc.word.length then E.enumByName ename else none with
  | none =>
    if isAscii ename then (c, .error (.unknownType ename))
    else
      match done sc (place sc (.plain (.typeId 0))).1 with
      | some e => (c, .error e)
      | none => (c, .error .nonAscii)
  | some en =>
    match sc.outer with
    | .arr => (c, .error (.enumDefaultIn "list" ename))
    | .set => (c, .error (.enumDefaultIn "set" ename))
    | .restricted => (c, .error (.enumDefaultIn "thing" ename))
    | .plain =>
      if member = [] then (c, .error .enumDefaultEmpty)
      else if E.hasMember en member then
        (c.push (.enum en), found sc (.plain (.enumId en)) (.member en member))
      else
        (c, .error (if isAscii sc.word then .noMember member ename else .nonAscii))

/-- A specification which is not in brackets and not nillable. -/
def Scan.isDirect : Bool := sc.outer = .plain && !sc.nillable

def initSelf : Counts × Except DeclError Leaf :=
  match x.self with
  | none => (c, found sc (.plain (.typeId 0)) .none)
  | some i =>
    if sc.isDirect ∧ !x.wrapOnly then (c, .error (.circular s))
    else if c.selfref = 255 then (c, .error .selfrefs)
    else (c.incSelf, found sc (.plain (.typeId i)) .none)

def depErr (dep : TypeId) : Option DeclError :=
  if sc.isDirect then
    match E.depCheck x.self dep with
    | none => some .diverges
    | some true => some (.circular s)
    | some false => if !x.wrapOnly ∧ E.wrapOnly dep then some .wrapOnlyDep else none
  else none

def initName : Counts × Except DeclError Leaf :=
  match E.typeByName sc.word with
  | some dep =>
    match depErr E x s sc dep with
    | some e => (c, .error e)
    | none => (c.push (.type dep), found sc (.plain (.typeId dep)) .none)
  | none =>
    match E.enumByName sc.word with
    | none => (c, .error (if isAscii sc.word then .unknownType sc.word else .nonAscii))
    | some en =>
      if sc.outer = .set then (c, .error (.setEnum sc.word))
      else (c.push (.enum en), found sc (.plain (.enumId en)) .none)

def initCond (r : Except Ex (CondSpec × Info)) : Except DeclError Leaf :=
  match r with
  | .error e => .error (.cond e)
  | .ok (spec, i) => .ok ⟨⟨spec.code, sc.nillable⟩, .any, sc.flags, .info i⟩

def initWord : Counts × Except DeclError Leaf :=
  if sc.outer = .plain ∧ sc.word.head? = some '/' then
    (c, initCond sc (E.pattern sc.word sc.nillable))
  else if sc.outer = .plain ∧ sc.word.getLast? = some '>' then
    (c, initCond sc (E.range sc.word sc.nillable))
  else
    match fieldMap sc.word with
    | some b => (c, found sc (.plain b) .none)
    | none =>
      if sc.word.getLast? = some '}' then initEnumDefault E c sc
      else if sc.word = x.name then initSelf x c s sc
      else initName E x c s sc

def Scan.named : Bool :=
  !(sc.outer = .plain && (sc.word.head? = some '/' || sc.word.getLast? = some '>')) &&
    (fieldMap sc.word).isNone

theorem initWord_cases :
    (∃ r, initWord E x c s sc = (c, initCond sc r)) ∨
    (∃ b, fieldMap sc.word = some b ∧ initWord E x c s sc = (c, found sc (.plain b) .none)) ∨
    sc.named ∧ (initWord E x c s sc = initEnumDefault E c sc ∨
      (sc.word = x.name ∧ initWord E x c s sc = initSelf x c s sc) ∨
      (sc.word ≠ x.name ∧ initWord E x c s sc = initName E x c s sc)) := by
  unfold initWord
  cases hmap : fieldMap sc.word with
  | some b =>
    simp only
    split_ifs
    · exact Or.inl ⟨_, rfl⟩
    · exact Or.inl ⟨_, rfl⟩
    · exact Or.inr (Or.inl ⟨b, rfl, rfl⟩)
  | none =>
    simp only
    split_ifs with hpattern hrange _ hname
    · exact Or.inl ⟨_, rfl⟩
    · exact Or.inl ⟨_, rfl⟩
    all_goals
      have hnamed : sc.named = true := by
        simp only [Scan.named, hmap, Option.isNone_none, Bool.and_true, Bool.not_eq_true',
          Bool.and_eq_false_imp, decide_eq_true_eq, Bool.or_eq_false_iff, decide_eq_false_iff_not]
        exact fun hplain => ⟨fun h => hpattern ⟨hplain, h⟩, fun h => hrange ⟨hplain, h⟩⟩
    · exact Or.inr (Or.inr ⟨hnamed, Or.inl rfl⟩)
    · exact Or.inr (Or.inr ⟨hnamed, Or.inr (Or.inl ⟨hname, rfl⟩)⟩)
    · exact Or.inr (Or.inr ⟨hnamed, Or.inr (Or.inr ⟨hname, rfl⟩)⟩)

/-- `field__init` for a text. -/
def initText : Counts × Except DeclError Leaf :=
  match scan s with
  | .error e => (c, .error e)
  | .ok sc =>
    match sc.word, sc.outer.code with
    | [], some outer => (c, .ok ⟨⟨outer, sc.nillable⟩, .any, sc.flags, .none⟩)
    | _, _ => initWord E x c s sc

end Text

structure Build where
  counts : Counts
  fields : List Field
  idname : Option Text
  methods : List (Text × Text)

/-- The fields are removed after an error, the last one first. -/
def Build.cleanup (m : Build) (self : Option TypeId) : Counts :=
  m.fields.foldr (fun f c => c.remove self f) m.counts

section Nested

variable (E : Env)

/-- The texts of a nested structure which are closures. -/
def isClosureText (s : Text) : Bool := s.head? = some '|'

/-- The first closure of a nested structure which cannot be read. -/
def closuresErr : Props → Option Ex
  | .nil => none
  | .cons _ d rest =>
    match d with
    | .str s => if isClosureText s then (E.closureErr s).or (closuresErr rest) else closuresErr rest
    | _ => closuresErr rest

def hasIdText : Props → Bool
  | .nil => false
  | .cons _ d rest =>
    match d with
    | .str s => s.head? = some '#' || hasIdText rest
    | _ => hasIdText rest

/-- `ti_field_create`, with what `field__init` gives. -/
def create (m : Build) : Counts × Except DeclError Field → Build × Option DeclError
  | (c, .ok f) => ({ m with counts := c, fields := m.fields ++ [f] }, none)
  | (c, .error e) => ({ m with counts := c }, some e)

/-- `type__assign`, where `init` is what `field__init` gives for the declaration. -/
def assign (x : Ctx) (m : Build) (name : Text) (d : Decl)
    (init : Counts × Except DeclError Field) : Build × Option DeclError :=
  match d with
  | .closure s => ({ m with methods := m.methods ++ [(name, s)] }, none)
  | .other tp => (m, some (.noDefinition x.wrapOnly tp))
  | .many n => (m, some (.listSize n))
  | .one (.thing _) | .thing _ => if x.wrapOnly then create m init else (m, some .notWrapOnly)
  | .one d => (m, some (.listElem d.tp))
  | .str s =>
    if s = ['#'] then
      if m.idname.isSome then (m, some .multipleIds) else ({ m with idname := some name }, none)
    else if x.self = none ∧ isClosureText s then
      ({ m with methods := m.methods ++ [(name, s)] }, none)
    else create m init

/-- The end of `ti_condition_init_type`, where the type is `m` after all properties or after
the first error. -/
def initType (name : Text) (arr : Bool) (raw : Decl) (props : Props) (c : Counts) :
    Build × Option DeclError → Counts × Except DeclError Field
  | (m, none) =>
    ({ c with refcount := m.counts.refcount },
      .ok (.nest name arr raw m.fields ⟨m.counts.deps, m.idname, m.methods, !hasIdText props⟩))
  | (m, some e) =>
    let clean := m.cleanup none
    ({ c with refcount := decAll clean.deps clean.refcount }, .error e)

def Build.empty (rc : Target → ℤ) : Build := ⟨⟨[], 0, rc⟩, [], none, []⟩

mutual

/-- `field__init`, with `ti_condition_init_type` for a nested structure. -/
def initDecl (x : Ctx) (name : Text) (c : Counts) : Decl → Counts × Except DeclError Field
  | .str s =>
    match initText E x c s with
    | (c, .ok data) => (c, .ok (.leaf name s data))
    | (c, .error e) => (c, .error e)
  | .thing props =>
    match closuresErr E props with
    | some e => (c, .error (.cond e))
    | none => initType name false (.thing props) props c
        (initProps ⟨none, x.name, true⟩ (.empty c.refcount) props)
  | .one (.thing props) =>
    match closuresErr E props with
    | some e => (c, .error (.cond e))
    | none => initType name true (.one (.thing props)) props c
        (initProps ⟨none, x.name, true⟩ (.empty c.refcount) props)
  | _ => (c, .error .corrupt)

/-- `type__assign` for each property in turn. -/
def initProps (x : Ctx) (m : Build) : Props → Build × Option DeclError
  | .nil => (m, none)
  | .cons name d rest =>
    match assign x m name d (initDecl x name m.counts d) with
    | (m, none) => initProps x m rest
    | (m, some e) => (m, some e)

end

end Nested

end ThingsDB.Types
