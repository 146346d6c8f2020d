import ThingsDB.Ex
import ThingsDB.Lib.Converse
import ThingsDB.Util.Imap
import Mathlib.Tactic

/-!
# Related properties

The callbacks of `ti_condition_field_rel_init` and the functions which use them.
A property with a relation is a set, or a nillable thing; both are the things in
it here, so that `nil` is the empty set. Reference counts are left out, and
allocations succeed.
-/

namespace ThingsDB.Relations

open Util

/-- The fields of the types: `rel` is the field on the other side of a relation,
`target` the specification of the things in the property, where none is `any`,
and the names are used in messages. -/
structure Schema (φ τ : Type) where
  rel : φ → Option φ
  isSet : φ → Bool
  target : φ → Option τ
  typeName : φ → String
  name : φ → String
  specRaw : φ → String
  rel_involutive : Converse.Involutive rel
  rel_target : ∀ f, rel f ≠ none → target f ≠ none

/-- The things: `typeOf` is the type id, `stored` tells if there is an id, and
`str` is the name of the type in messages. -/
structure Things (τ : Type) where
  typeOf : ℕ → τ
  stored : ℕ → Bool
  str : ℕ → String

def Store (φ : Type) : Type := φ → ℕ → Imap

namespace Store

variable {φ : Type} [DecidableEq φ]

def set (s : Store φ) (f : φ) (a : ℕ) (m : Imap) : Store φ :=
  fun g b => if g = f ∧ b = a then m else s g b

@[simp] theorem set_self (s : Store φ) (f : φ) (a : ℕ) (m : Imap) : s.set f a m f a = m := by
  simp [set]

theorem set_of_ne (s : Store φ) {f g : φ} {a b : ℕ} (m : Imap) (h : ¬(g = f ∧ b = a)) :
    s.set f a m g b = s g b := if_neg h

theorem set_apply (s : Store φ) (f g : φ) (a b : ℕ) (m : Imap) :
    s.set f a m g b = if g = f ∧ b = a then m else s g b := rfl

theorem set_set (s : Store φ) (f : φ) (a : ℕ) (m m' : Imap) :
    (s.set f a m).set f a m' = s.set f a m' := by
  funext g b
  unfold set
  split_ifs <;> rfl

def Rel (s : Store φ) (f : φ) (a b : ℕ) : Prop := b ∈ s f a

end Store

variable {φ τ : Type} [DecidableEq φ] [DecidableEq τ]

/-- A value which is assigned. A set carries its own specification, and any other
value the name of its type. -/
inductive Val (τ : Type) where
  | nil
  | thing (t : ℕ)
  | set (spec : Option τ) (imap : Imap)
  | other (str : String)

namespace Schema

variable (S : Schema φ τ)

/-- `condition__add_type_cb` and `condition__add_set_cb` -/
def addCb (s : Store φ) (f : φ) (a b : ℕ) : Store φ :=
  if S.isSet f then s.set f a ((s f a).add b) else s.set f a (.single b)

/-- `condition__del_type_cb`, `condition__del_set_cb` and, for a set which is
related to itself, `condition__del_same_set_cb`. -/
def delCb (s : Store φ) (f : φ) (a b : ℕ) : Store φ :=
  if S.isSet f then
    if S.rel f = some f ∧ a = b then s else s.set f a ((s f a).pop b)
  else s.set f a .empty

/-- Make `p` the value of the property `g` of `t`, where `f` is on the other side.
A thing which can have one partner only is first taken from its present one. -/
def link (s : Store φ) (f g : φ) (p t : ℕ) : Store φ :=
  let s :=
    if S.isSet g then s
    else
      match (s g t).things with
      | [] => s
      | o :: _ => S.delCb s f o t
  S.addCb s g t p

end Schema
end ThingsDB.Relations
