import ThingsDB.Relations.Sets
import ThingsDB.Relations.Instance

/-!
# Which operations keep relations symmetric

All of them, but for three: `add` on a relation when it fails half-way, `new` with an
instance of the same type, and `dup`.
-/

namespace ThingsDB.Relations

open Util Schema

variable {φ τ : Type} [DecidableEq φ] [DecidableEq τ]
variable {S : Schema φ τ} {T : Things τ} {s : Store φ} {f g : φ} {op : Op φ τ} {o : Outcome φ}

/-- The set functions and operators are called on sets, and a new instance is new. -/
def Proper (S : Schema φ τ) (s : Store φ) : Op φ τ → Prop
  | .assign _ _ _ => True
  | .add _ f _ | .remove _ f _ | .removeIf _ f _ _ | .clear _ f | .inplace _ f _ _ =>
    S.isSet f = true
  | .fromObject n _ props => New s n ∧ ∀ f v, props f = some v → ¬v.Has n
  | .fromInstance n _ _ _ _ | .dup n _ _ => New s n

/-- The arguments and the closure of a call change no property. -/
def PureOp : Op φ τ → Prop
  | .add _ _ args | .remove _ _ args => PureArgs args
  | .removeIf _ _ closure _ => ∀ t s, (closure t s).1 = s
  | _ => True

/-- The condition under which the relation between `f` and `g` stays symmetric. An
instance must not have related things when it is copied. -/
def Safe (S : Schema φ τ) (T : Things τ) (s : Store φ) (f g : φ) : Op φ τ → Prop
  | .add p k args => AddReturns S T s k p args ∧ (k = f → AddSafe S T s f g p args) ∧
    (k = g → AddSafe S T s g f p args)
  | .fromInstance _ t type _ fields =>
    T.typeOf t = type → (f ∈ fields → ∀ x, x ∉ s f t) ∧ (g ∈ fields → ∀ x, x ∉ s g t)
  | .dup _ t fields => (f ∈ fields → ∀ x, x ∉ s f t) ∧ (g ∈ fields → ∀ x, x ∉ s g t)
  | _ => True

section

variable (h : Sound S f g s) (hrel : S.rel f = some g)

include h hrel

theorem Sound.nameAssign (p : ℕ) (k : φ)
    (v : Val τ) : Sound S f g (S.nameAssign T s p k v).store := by
  unfold Schema.nameAssign
  cases ha : S.makeAssignable T s k p v with
  | error e => exact h
  | ok r =>
    obtain ⟨s', m⟩ := r
    exact (makeAssignable_ok ha).sound hrel h

theorem Sound.inplace {k : φ} (hk : S.isSet k) (p : ℕ) (op : SetOp) (b : Imap) :
    Sound S f g (S.inplace T s p k op b).store := by
  simp only [Schema.inplace]
  cases S.vsetPreAssignCheck T k p (op.apply (s k p) b) op.doTypeCheck with
  | some e => exact h
  | none =>
    -- the same as an assignment of the result
    exact (Assigns.set none (op.apply (s k p) b) hk).sound hrel h

theorem Sound.fromObject {n : ℕ}
    {props : φ → Option (Val τ)} (hnew : New s n) (hprops : ∀ f v, props f = some v → ¬v.Has n)
    (fields : List φ) : Sound S f g (S.fromObject T s n fields props).store := by
  have hinit : Sound S f g (initStore (S.initFields T n props fields s)) :=
    h.initFields hrel fields
  have hown := initFields_own (S := S) (T := T) fields hnew hprops
  unfold Schema.fromObject
  cases hi : S.initFields T n props fields s with
  | ok s' =>
    rw [hi] at hinit
    exact hinit
  | error e =>
    obtain ⟨e, s'⟩ := e
    rw [hi] at hinit hown
    exact hinit.cancel hrel (hown f).1 (hown f).2 (hown g).2

theorem add_symmetric_iff_safe {k : φ} {p : ℕ}
    {args : List (Arg φ τ)} (hk : S.isSet k) (hpure : PureArgs args) :
    (∃ o, S.add T s p k args = some o ∧ Symmetric o.store f g) ↔
      Safe S T s f g (.add p k args) := by
  refine add_iff hk hpure fun o ho => ?_
  have hgf := S.rel_involutive f g hrel
  have hswap : Symmetric o.store f g ↔ Symmetric o.store g f := ⟨Symmetric.swap, Symmetric.swap⟩
  rcases rel_cases (k := k) hrel with rfl | rfl | ⟨hf, hg⟩
  · have hiff := add_symmetric_iff h hrel hk hpure ho
    grind
  · have hiff := add_symmetric_iff h.swap hgf hk hpure ho
    grind
  · have hsym : Symmetric o.store f g := by
      intro a b
      rw [add_other hpure ho hf.1 hf.2, add_other hpure ho hg.1 hg.2]
      exact h.symmetric a b
    grind

end

/-- A box has a set with items, and an item is in one box: `false` is the field of
the boxes and `true` the field of the items. -/
def boxSchema : Schema Bool Bool where
  rel f := some !f
  isSet f := !f
  target f := some !f
  typeName f := if f then "Item" else "Box"
  name f := if f then "box" else "items"
  specRaw f := if f then "Box?" else "\x7bItem\x7d"
  rel_involutive := by
    intro f g h
    cases h
    simp
  rel_target := by simp

/-- Thing 2 is an item, the others are boxes. -/
def boxThings : Things Bool where
  typeOf n := n == 2
  stored _ := true
  str n := if n = 2 then "Item" else "Box"

def noItems : Store Bool := fun _ _ => .empty

end ThingsDB.Relations
