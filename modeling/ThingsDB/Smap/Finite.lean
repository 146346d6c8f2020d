import Mathlib.Data.Finmap
import ThingsDB.Lib.Refine
import ThingsDB.Smap.Map

/-!
# String maps are finite maps

The calls on a string map answer as a finite map from byte strings does, in every run without
three kinds of calls. A key may not be removed while there are keys which go on from it with each of
the 256 bytes: its node has a size of zero and is destroyed with everything below it. And a C
string may not be used while it is no key and all keys which start with it go on with a NUL byte:
the comparison with the node does not stop at the end of the string. A new key may not be longer
than 2^32 bytes, one for the array of the map and a part for a node, and there may not be 2^32 keys.
-/

namespace ThingsDB.Smap

abbrev Str := { key : List Byte // key ≠ [] ∧ 0 ∉ key }

inductive Req (α : Type) where
  | addn (key : List Byte) (a : α)
  | add (key : Str) (a : α)
  | getn (key : List Byte)
  | get (key : Str)
  | popn (key : List Byte)
  | pop (key : Str)

/-- What a call returns: success or `SMAP_ERR_EXIST`, or data or NULL. -/
inductive Answer (α : Type) where
  | added (new : Bool)
  | data (d : Option α)
  | undefined
deriving DecidableEq

namespace Map

variable {α : Type}

def answer {β : Type} (s : Map α) (f : β → Answer α) : Option (Map α × β) → Map α × Answer α
  | none => (s, .undefined)
  | some (s', b) => (s', f b)

def call (s : Map α) : Req α → Map α × Answer α
  | .addn key a => s.answer .added (s.addWith false key a)
  | .add key a => s.answer .added (s.addWith true key a)
  | .getn key => s.answer .data ((s.getWith false key).map (s, ·))
  | .get key => s.answer .data ((s.getWith true key).map (s, ·))
  | .popn key => s.answer .data (s.popWith false key)
  | .pop key => s.answer .data (s.popWith true key)

end Map

abbrev Finite (α : Type) := Finmap fun _ : List Byte => α

namespace Finite

variable {α : Type}

def add (m : Finite α) (key : List Byte) (a : α) : Finite α × Answer α :=
  if (m.lookup key).isSome then (m, .added false) else (m.insert key a, .added true)

def call (m : Finite α) : Req α → Finite α × Answer α
  | .addn key a => m.add key a
  | .add key a => m.add key a
  | .getn key => (m, .data (m.lookup (β := fun _ => α) key))
  | .get key => (m, .data (m.lookup (β := fun _ => α) key.1))
  | .popn key => (m.erase key, .data (m.lookup (β := fun _ => α) key))
  | .pop key => (m.erase key.1, .data (m.lookup (β := fun _ => α) key.1))

end Finite

namespace Map

variable {α : Type}

/-- The number of bytes and the number of keys fit in 32 bits if the key is new. -/
def Fits (s : Map α) (key : List Byte) : Prop :=
  s.getn key = none → key.length ≤ 2 ^ 32 ∧ s.n + 1 < 2 ^ 32

def Safe (s : Map α) : Req α → Prop
  | .addn key _ => s.Fits key
  | .add key _ => s.Fits key ∧ ¬ Node.Overread s.getn key
  | .getn _ => True
  | .get key => ¬ Node.Overread s.getn key
  | .popn key => key = [] ∨ ¬ Node.Full s.getn key
  | .pop key => ¬ Node.Full s.getn key ∧ ¬ Node.Overread s.getn key

structure Is (s : Map α) (m : Finite α) : Prop where
  sound : Sound s
  find : ∀ key, s.toNode.find key = m.lookup key
  n : s.n = m.keys.card
  small : s.n < 2 ^ 32
  short : ∀ key a, m.lookup key = some a → key.length ≤ 2 ^ 32

section Is

variable {s : Map α} {m : Finite α}

theorem is_create : Is (create : Map α) ∅ := by
  refine ⟨sound_create, fun key => ?_, rfl, Nat.two_pow_pos 32, nofun⟩
  cases key with
  | nil => rfl
  | cons k ks => exact find_cons k ks

theorem Is.addWith (h : Is s m) {key : List Byte} (hfits : s.Fits key) (a : α) :
    ∃ s', s.addWith false key a = some (s', (m.lookup key).isNone) ∧ Is s' (m.add key a).1 ∧
      (m.add key a).2 = .added (m.lookup key).isNone := by
  rw [Fits, h.sound.getn_eq, h.find] at hfits
  have hlen : key.length ≤ 2 ^ 32 := by
    cases hkey : m.lookup key with
    | some b => exact h.short key b hkey
    | none => exact (hfits hkey).1
  obtain ⟨s', hs', hsound, hn, hfind⟩ := h.sound.addWith hlen a
  rw [h.find] at hs' hn
  refine ⟨s', hs', ?_⟩
  cases hkey : m.lookup key with
  | some b =>
    have hadd : m.add key a = (m, .added false) := by rw [Finite.add, hkey]; rfl
    rw [hadd]
    have hsame : s'.n = s.n := by rw [hn, hkey]; rfl
    refine ⟨⟨hsound, fun key' => ?_, hsame.trans h.n, hsame ▸ h.small, h.short⟩, rfl⟩
    rw [hfind, h.find, h.find, hkey]
    by_cases heq : key' = key
    · rw [if_pos heq, heq, hkey]
      rfl
    · rw [if_neg heq]
  | none =>
    have hadd : m.add key a = (m.insert key a, .added true) := by rw [Finite.add, hkey]; rfl
    rw [hadd]
    have hroom := (hfits hkey).2
    have hsucc : s'.n = s.n + 1 := by
      rw [hn, hkey]
      exact Nat.mod_eq_of_lt hroom
    refine ⟨⟨hsound, fun key' => ?_, ?_, hsucc ▸ hroom, fun key' b hb => ?_⟩, rfl⟩
    · rw [hfind, h.find, h.find, hkey]
      by_cases heq : key' = key
      · rw [if_pos heq, heq, Finmap.lookup_insert]
        rfl
      · rw [if_neg heq, Finmap.lookup_insert_of_ne _ heq]
    · have hkeys : (m.insert key a).keys = insert key m.keys := by
        ext key'
        rw [Finset.mem_insert, Finmap.mem_keys, Finmap.mem_keys, Finmap.mem_insert]
      have hfresh : key ∉ m.keys := by rwa [Finmap.mem_keys, ← Finmap.lookup_eq_none]
      rw [hsucc, hkeys, Finset.card_insert_of_notMem hfresh, h.n]
    · by_cases heq : key' = key
      · exact heq ▸ hlen
      · rw [Finmap.lookup_insert_of_ne _ heq] at hb
        exact h.short key' b hb

theorem Is.popWith (h : Is s m) {key : List Byte} (hfull : key = [] ∨ ¬ Node.Full s.getn key) :
    ∃ s', s.popWith false key = some (s', m.lookup key) ∧ Is s' (m.erase key) := by
  have hcard : (m.erase key).keys.card = if (m.lookup key).isSome then dec s.n else s.n := by
    rw [Finmap.keys_erase]
    split
    · rename_i hsome
      have hmem : key ∈ m.keys := Finmap.mem_keys.mpr (Finmap.lookup_isSome.mp hsome)
      have hpos := Finset.card_pos.mpr ⟨key, hmem⟩
      have hsmall := h.small
      rw [Finset.card_erase_of_mem hmem, dec]
      rw [h.n] at hsmall ⊢
      omega
    · rename_i hnone
      rw [Finset.erase_eq_of_notMem, h.n]
      rwa [Finmap.mem_keys, ← Finmap.lookup_isSome]
  have hlast : (s.toNode.find key).isSome = true → dec s.n = 0 →
      ∀ key' ≠ key, s.toNode.find key' = none := by
    intro hsome hn key' hne
    rw [h.find] at hsome
    rw [if_pos hsome, hn, Finset.card_eq_zero] at hcard
    rw [h.find, ← Finmap.lookup_erase_ne hne, Finmap.lookup_eq_none, ← Finmap.mem_keys, hcard]
    exact Finset.notMem_empty key'
  obtain ⟨s', hs', hsound, hn, hfind⟩ := h.sound.popWith hfull hlast fun key a hkey =>
    h.short key a ((h.find key).symm.trans hkey)
  rw [h.find] at hs' hn
  refine ⟨s', hs', hsound, fun key' => ?_, hn.trans hcard.symm, ?_, fun key' a hkey' => ?_⟩
  · rw [hfind, h.find]
    by_cases heq : key' = key
    · rw [if_pos heq, heq, Finmap.lookup_erase]
    · rw [if_neg heq, Finmap.lookup_erase_ne heq]
  · rw [hn]
    split
    · exact Nat.mod_lt _ (by decide)
    · exact h.small
  · by_cases heq : key' = key
    · rw [heq, Finmap.lookup_erase] at hkey'
      cases hkey'
    · rw [Finmap.lookup_erase_ne heq] at hkey'
      exact h.short key' a hkey'

theorem Is.getWith (h : Is s m) (key : List Byte) : s.getWith false key = some (m.lookup key) := by
  rw [h.sound.getWith_eq, h.find]

theorem Is.call (h : Is s m) (req : Req α) (hsafe : s.Safe req) :
    Is (s.call req).1 (m.call req).1 ∧ (s.call req).2 = (m.call req).2 := by
  cases req with
  | addn key a =>
    obtain ⟨s', hs', his, hanswer⟩ := h.addWith hsafe a
    rw [Map.call, hs', Finite.call, hanswer]
    exact ⟨his, rfl⟩
  | add key a =>
    obtain ⟨-, -, hcstr⟩ := h.sound.cstr key.2.1 hsafe.2
    obtain ⟨s', hs', his, hanswer⟩ := h.addWith hsafe.1 a
    rw [Map.call, hcstr, hs', Finite.call, hanswer]
    exact ⟨his, rfl⟩
  | getn key =>
    rw [Map.call, h.getWith]
    exact ⟨h, rfl⟩
  | get key =>
    obtain ⟨hcstr, -, -⟩ := h.sound.cstr key.2.1 hsafe
    rw [Map.call, hcstr, h.getWith]
    exact ⟨h, rfl⟩
  | popn key =>
    obtain ⟨s', hs', his⟩ := h.popWith hsafe
    rw [Map.call, hs']
    exact ⟨his, rfl⟩
  | pop key =>
    obtain ⟨-, hcstr, -⟩ := h.sound.cstr key.2.1 hsafe.2
    obtain ⟨s', hs', his⟩ := h.popWith (.inr hsafe.1)
    rw [Map.call, hcstr, hs']
    exact ⟨his, rfl⟩

end Is

/-- In every run the calls answer as a finite map, and the string map at the end is that map. -/
theorem run_is_finite_map (reqs : List (Req α)) (h : Refine.Along call Safe create reqs) :
    (Refine.run call create reqs).2 = (Refine.run Finite.call (∅ : Finite α) reqs).2 ∧
      ∃ s m, (Refine.run call create reqs).1 = s ∧
        (Refine.run Finite.call (∅ : Finite α) reqs).1 = m ∧
        (∀ key, s.getn key = m.lookup key) ∧
        (∀ key : Str, ¬ Node.Overread s.getn key →
          s.getWith true key = some (m.lookup (β := fun _ => α) key.1)) ∧
        s.n = m.keys.card ∧ (s.items.map Prod.fst).Nodup ∧
        (∀ key a, (key, a) ∈ s.items ↔ m.lookup key = some a) ∧
        s.values = s.items.map Prod.snd := by
  obtain ⟨his, hanswers⟩ := Refine.run_refines (fun s m req h => h.call req) is_create h
  refine ⟨hanswers, _, _, rfl, rfl, ?_⟩
  generalize (Refine.run call create reqs).1 = s at his
  generalize (Refine.run Finite.call (∅ : Finite α) reqs).1 = m at his
  have hget : ∀ key, s.getn key = m.lookup key := by
    intro key
    rw [his.sound.getn_eq, his.find]
  obtain ⟨hnodup, hmem⟩ := his.sound.listed
  refine ⟨hget, fun key hread => ?_, his.n, hnodup, fun key a => ?_, values_eq⟩
  · rw [(his.sound.cstr key.2.1 hread).1, his.getWith]
  · rw [hmem, hget]

/-- A key as a C string and one which goes on from it, then the first one is removed again. -/
theorem run_is_finite_map_start :
    Refine.Along call Safe create [.add ⟨[97], by decide⟩ 1, .addn [97, 98] 2, .popn [97]] ∧
    (Refine.run call create [.add ⟨[97], by decide⟩ 1, .addn [97, 98] 2, .popn [97]]).2 =
      [.added true, .added true, .data (some 1)] := by
  have hsafe : Refine.Along call Safe create
      [.add ⟨[97], by decide⟩ 1, .addn [97, 98] 2, .popn [97]] := by
    refine ⟨⟨fun _ => by decide, ?_⟩, fun _ => by decide, .inr fun hfull => ?_, trivial⟩
    · rintro ⟨⟨t, ht⟩, -⟩
      exact Bool.false_ne_true ht
    · obtain ⟨t, ht⟩ := hfull 0
      exact Bool.false_ne_true ht
  refine ⟨hsafe, (run_is_finite_map _ hsafe).1.trans ?_⟩
  decide +kernel

def fill : List (Req Unit) := (List.finRange 256).map fun b => .addn [1, b] ()

def aroundPop : List (Req Unit) := [.getn [1, 0], .popn [1], .getn [1, 0]]

theorem Finite.aroundPop_same (m : Finite Unit) :
    ∃ x y, (Refine.run Finite.call m aroundPop).2 = [x, y, x] := by
  refine ⟨.data (m.lookup [1, 0]), .data (m.lookup [1]), ?_⟩
  have hsame : (m.erase [1]).lookup [1, 0] = m.lookup [1, 0] := Finmap.lookup_erase_ne (by decide)
  simp only [aroundPop, Refine.run, Finite.call, hsame]

/-- Removing a key which is not there removes other keys, and a C string is read past its end. -/
theorem pop_loses_and_get_overreads :
    (Refine.run call create (fill ++ aroundPop)).2 ≠
      (Refine.run Finite.call (∅ : Finite Unit) (fill ++ aroundPop)).2 ∧
    (Refine.run call create [.addn [1, 0, 2] (), .get ⟨[1], by decide⟩]).2 =
      [.added true, .undefined] := by
  refine ⟨fun heq => ?_, by decide +kernel⟩
  have hcode : (Refine.run call create (fill ++ aroundPop)).2.drop 256 =
      [.data (some ()), .data none, .data none] := by decide +kernel
  have hlen : (Refine.run Finite.call (∅ : Finite Unit) fill).2.length = 256 := by
    rw [Refine.length_run, fill, List.length_map, List.length_finRange]
  obtain ⟨x, y, hxy⟩ := Finite.aroundPop_same (Refine.run Finite.call ∅ fill).1
  rw [heq, Refine.run_append, hxy, ← hlen, List.drop_left] at hcode
  cases hcode

end Map

end ThingsDB.Smap
