import ThingsDB.Lists.Ops
import ThingsDB.Typed.Field

/-!
# Things with a type or a restriction

The things of a collection with their values, and the ways to change a value:
assignments by name and by index, with and without an operator, to an element and to
a slice of a list, and `to_thing`. Related properties are changed as in `Relations`.
-/

namespace ThingsDB.Typed

open Util Relations

/-- A field for a relation with a type: a set, or a nillable thing. -/
def Field.RefersTo (F : Field) (type : TypeId) : Prop :=
  F.base = .plain .set ∧ F.nillable = false ∧ F.nested = ⟨.typeId type, false, by simp⟩ ∨
    F.base = .plain (.typeId type) ∧ F.nillable = true

/-- A field which accepts things of a type, which the type counts as a reference. -/
def Field.Uses (F : Field) (type : TypeId) : Prop :=
  F.base = .plain (.typeId type) ∨ F.nested.base = .typeId type

/-- The types of a collection: `inUse` are the types which other types or they themselves
refer to. -/
structure Types (φ : Type) where
  field : φ → Field
  fields : TypeId → List φ
  rel : φ → Option φ
  inUse : TypeId → Bool
  fields_type : ∀ type, ∀ f ∈ fields type, (field f).type = type
  rel_involutive : Converse.Involutive rel
  rel_spec : ∀ f g, rel f = some g → (field f).RefersTo (field g).type
  uses_inUse : ∀ f type, (field f).Uses type → inUse type = true

/-- The things: their kind, their id which is zero for a thing which is not stored, the
values of an instance and the properties of any other thing. -/
structure Collection (φ : Type) where
  kind : ℕ → Kind
  id : ℕ → ℕ
  vals : φ → ℕ → Val
  props : ℕ → List (Raw × Val)

/-- A value which is assigned: one which is not a property, where `shared` tells if there
are other references to it, or the value of a property of an instance or of any other thing. -/
inductive Rval (φ : Type) where
  | val (v : Val) (shared : Bool)
  | prop (p : ℕ) (f : φ)
  | key (p : ℕ) (name : Raw)

variable {φ : Type} [DecidableEq φ]

namespace Types

/-- One type with the fields, without relations. -/
def single (field : φ → Field) (fs : List φ) (htype : ∀ f, (field f).type = 0)
    (huses : ∀ f type, ¬ (field f).Uses type) : Types φ where
  field := field
  fields type := if type = 0 then fs else []
  rel _ := none
  inUse _ := false
  fields_type := by
    intro type f hf
    split_ifs at hf with h
    · exact (htype f).trans h.symm
    · simp at hf
  rel_involutive := Converse.involutive_none _
  rel_spec := by simp
  uses_inUse f type hf := absurd hf (huses f type)

variable (E : Env) (T : Types φ)

def isSet (f : φ) : Bool :=
  match (T.field f).base with
  | .plain .set => true
  | _ => false

def target (f : φ) : Option ℕ :=
  match (T.field f).base with
  | .plain .set => if (T.field f).nested = .any then none else some (T.field f).nested.code
  | .plain (.typeId i) => some i
  | _ => none

/-- The fields as `Relations` has them. -/
def schema : Schema φ ℕ where
  rel := T.rel
  isSet := T.isSet
  target := T.target
  typeName f := E.typeName (T.field f).type
  name f := E.text (T.field f).name
  specRaw f := E.text (T.field f).specRaw
  rel_involutive := T.rel_involutive
  rel_target := by
    intro f hf
    obtain ⟨g, hg⟩ := Option.ne_none_iff_exists'.mp hf
    rcases T.rel_spec f g hg with ⟨hb, -, hn⟩ | ⟨hb, -⟩
    · simp [target, hb, hn, Spec.any]
    · simp [target, hb]

def byName (type : TypeId) (name : Raw) : Option φ :=
  (T.fields type).find? fun f => (T.field f).name = name

end Types

section Things

variable (E : Env) (c : Collection φ)

def things : Things ℕ where
  typeOf t := (c.kind t).typeId
  stored t := c.id t ≠ 0
  str t := (Val.thing t).typeStr E c.kind

/-- The values of the fields as `Relations` has them. -/
def view : Store φ := fun f a =>
  match c.vals f a with
  | .thing t => .single t
  | .set imap => imap
  | _ => .empty

def ofImap (isSet : Bool) (imap : Imap) : Val :=
  if isSet then .set imap
  else
    match imap.things with
    | [] => .nil
    | t :: _ => .thing t

def restore (T : Types φ) (s : Store φ) : φ → ℕ → Val := fun f a =>
  if s f a = view c f a then c.vals f a else ofImap (T.isSet f) (s f a)

def setField (f : φ) (p : ℕ) (v : Val) : Collection φ :=
  { c with vals := fun k a => if k = f ∧ a = p then v else c.vals k a }

def setKey (key : Raw) (v : Val) : List (Raw × Val) → List (Raw × Val)
  | [] => [(key, v)]
  | (k, w) :: props => if k = key then (k, v) :: props else (k, w) :: setKey key v props

def setProp (t : ℕ) (key : Raw) (v : Val) : Collection φ :=
  { c with props := fun a => if a = t then setKey key v (c.props a) else c.props a }

end Things
end ThingsDB.Typed
