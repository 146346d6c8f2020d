import Mathlib.Tactic

/-!
# Trees as a sequence of tokens

A node is written as a token with the number of its children, followed by the children. A
reader takes as many trees from the sequence as it needs, which ends too early if a node
counts more children than there are. `need` is the number of trees which are still missing
at the end of a sequence.
-/

namespace Wire

open List

variable {α τ : Type*}

inductive Tree (α τ : Type*) where
  | leaf (a : α)
  | node (t : τ) (children : List (Tree α τ))

inductive Tok (α τ : Type*) where
  | leaf (a : α)
  | node (t : τ) (n : ℕ)
  deriving DecidableEq, Repr

mutual

def encode : Tree α τ → List (Tok α τ)
  | .leaf a => [.leaf a]
  | .node t children => .node t children.length :: encodes children

def encodes : List (Tree α τ) → List (Tok α τ)
  | [] => []
  | t :: ts => encode t ++ encodes ts

end

/-- Read a number of trees, and give what is left. Every step takes a token or ends one
list of children, so the fuel is for both. -/
def decodes : ℕ → ℕ → List (Tok α τ) → Option (List (Tree α τ) × List (Tok α τ))
  | _, 0, ts => some ([], ts)
  | 0, _ + 1, _ => none
  | _ + 1, _ + 1, [] => none
  | fuel + 1, n + 1, .leaf a :: ts =>
    (decodes fuel n ts).map fun r => (.leaf a :: r.1, r.2)
  | fuel + 1, n + 1, .node t k :: ts =>
    (decodes fuel k ts).bind fun r =>
      (decodes fuel n r.2).map fun q => (.node t r.1 :: q.1, q.2)

def decode (ts : List (Tok α τ)) : Option (Tree α τ) :=
  (decodes ts.length 1 ts).bind fun r => r.1.head?

/-- The number of trees which are missing at the end, if some are needed at the start. -/
def need : ℕ → List (Tok α τ) → ℕ
  | 0, _ => 0
  | n + 1, [] => n + 1
  | n + 1, .leaf _ :: ts => need n ts
  | n + 1, .node _ k :: ts => need (k + n) ts

variable {trees : List (Tree α τ)} {rest ts : List (Tok α τ)}

theorem need_of_decodes {fuel n m : ℕ}
    (h : decodes fuel n ts = some (trees, rest)) : need (n + m) ts = need m rest := by
  induction fuel generalizing n m ts rest trees with
  | zero =>
    cases n with
    | zero =>
      cases h
      rw [Nat.zero_add]
    | succ n => cases h
  | succ fuel ih =>
    cases n with
    | zero =>
      cases h
      rw [Nat.zero_add]
    | succ n =>
      cases ts with
      | nil => cases h
      | cons t ts =>
        rw [Nat.add_right_comm]
        cases t with
        | leaf a =>
          obtain ⟨r, hr, heq⟩ := Option.map_eq_some_iff.mp h
          cases heq
          exact ih hr
        | node t k =>
          obtain ⟨r, hr, hq⟩ := Option.bind_eq_some_iff.mp h
          obtain ⟨q, hread, heq⟩ := Option.map_eq_some_iff.mp hq
          cases heq
          rw [need, ih hr, ih hread]

theorem decode_eq_none (h : 0 < need 1 ts) : decode ts = none := by
  cases hd : decodes ts.length 1 ts with
  | none => rw [decode, hd, Option.bind_none]
  | some r =>
    have hneed := need_of_decodes (m := 0) hd
    rw [Nat.add_zero, need] at hneed
    omega

theorem length_encode_pos (t : Tree α τ) : 0 < (encode t).length := by
  cases t <;> simp [encode]

theorem decodes_encodes {fuel : ℕ} (h : (encodes trees).length ≤ fuel) :
    decodes fuel trees.length (encodes trees ++ rest) = some (trees, rest) := by
  induction fuel generalizing trees rest with
  | zero =>
    cases trees with
    | nil => rfl
    | cons t ts =>
      have hpos := length_encode_pos t
      rw [encodes, length_append] at h
      omega
  | succ fuel ih =>
    cases trees with
    | nil => rfl
    | cons t ts =>
      cases t with
      | leaf a =>
        simp only [encodes, encode, length_append, length_cons, length_nil] at h
        simp only [encodes, encode, cons_append, nil_append, length_cons, decodes]
        rw [ih (by omega)]
        rfl
      | node t children =>
        simp only [encodes, encode, length_append, length_cons] at h
        simp only [encodes, encode, cons_append, append_assoc, length_cons, decodes]
        rw [ih (by omega), Option.bind_some, ih (by omega)]
        rfl

theorem decode_encode (t : Tree α τ) : decode (encode t) = some t := by
  have hread : decodes (encodes [t]).length 1 (encodes [t] ++ []) = some ([t], []) :=
    decodes_encodes le_rfl
  simp only [encodes, append_nil] at hread
  rw [decode, hread]
  rfl

end Wire
