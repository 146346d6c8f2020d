import ThingsDB.Smap.Pop

/-!
# Calls for C strings

A call for a string which ends with a NUL byte does what the call with a length does, as long as
the NUL is not compared with a NUL inside of a node. That is where the string itself is not a key
and all keys which start with the string go on with a NUL.
-/

namespace ThingsDB.Smap.Node

open List

variable {α : Type}

/-- There are keys which start with the string, and all of them go on with a NUL. -/
def Overread (find : List Byte → Option α) (key : List Byte) : Prop :=
  (∃ s, (find (key ++ 0 :: s)).isSome = true) ∧
    ∀ key', (find key').isSome = true → key <+: key' → key ++ [0] <+: key'

section Node

variable {part key ks : List Byte} {d : Option α} {size off sz : ℕ} {alloc : Bool}
  {nds : ℕ → Node α} {k : Byte}

/-- Everything below a node starts with the part of the node. -/
theorem overread_of_overruns (h : Ok (.node part d size off sz alloc nds))
    (hover : overruns true part key) :
    Overread (Node.node part d size off sz alloc nds).find key := by
  rw [overruns, Bool.true_and, isPrefixOf_iff_prefix] at hover
  have hstart : ∀ key', ((Node.node part d size off sz alloc nds).find key').isSome = true →
      key ++ [0] <+: key' := by
    intro key' hkey'
    obtain ⟨a, ha⟩ := Option.isSome_iff_exists.mp hkey'
    exact hover.trans (prefix_of_find ha)
  obtain ⟨key', a, ha⟩ := h.exists_find nofun
  have hsome : ((Node.node part d size off sz alloc nds).find key').isSome = true := by
    rw [ha, Option.isSome_some]
  refine ⟨?_, fun key' hkey' _ => hstart key' hkey'⟩
  obtain ⟨s, rfl⟩ := hstart key' hsome
  exact ⟨s, by rwa [append_assoc] at hsome⟩

theorem overread_kid (h : Overread ((Node.node part d size off sz alloc nds).kid k).find ks) :
    Overread (Node.node part d size off sz alloc nds).find (part ++ k :: ks) := by
  obtain ⟨⟨s, hs⟩, hall⟩ := h
  refine ⟨⟨s, ?_⟩, ?_⟩
  · rwa [append_assoc, cons_append, find_append]
  · rintro key' hkey' ⟨s', rfl⟩
    rw [append_assoc, cons_append, find_append] at hkey'
    obtain ⟨t, ht⟩ := hall _ hkey' (prefix_append ks s')
    exact ⟨t, by simp only [append_assoc, cons_append, ← ht]⟩

end Node

section Calls

variable {nd : Node α} {key : List Byte}

theorem overruns_of_not_overread {part : List Byte} {d : Option α} {size off sz : ℕ}
    {alloc : Bool} {nds : ℕ → Node α} (h : Ok (.node part d size off sz alloc nds))
    (hread : ¬ Overread (Node.node part d size off sz alloc nds).find key) :
    overruns true part key = false :=
  Bool.eq_false_iff.mpr fun hover => hread (overread_of_overruns h hover)

section

variable (h : Ok nd) (hread : ¬ Overread nd.find key)

include h hread

theorem Ok.get_cstr : nd.get true key = nd.get false key := by
  induction nd generalizing key with
  | null => rfl
  | node part d size off sz alloc nds ih =>
    rw [get, get, overruns_false, overruns_of_not_overread h hread]
    obtain rfl | ⟨k, ks, rfl⟩ | hpre := key_cases part key
    · rw [drop_length]
    · rw [drop_left]
      cases hcov : covers off sz alloc k with
      | true =>
        have hk : (Node.node part d size off sz alloc nds).kid k = nds (k - off * 32) :=
          kid_node_of_covers hcov
        have hkid := ih _ (hk ▸ h.kids k) fun hkid => hread (overread_kid (hk ▸ hkid))
        simp only [hkid]
      | false => simp only [hcov, Bool.false_eq_true, if_false]
    · simp only [isPrefixOf_eq_false hpre, Bool.not_false, if_true]

theorem Ok.add_cstr (a : α) : nd.add true a key = nd.add false a key := by
  induction nd generalizing key with
  | null => rfl
  | node part d size off sz alloc nds ih =>
    rw [Node.add, Node.add, overruns_false, overruns_of_not_overread h hread]
    obtain ⟨hlen, ks, rfl⟩ | ⟨pre, p, rest, rfl, hlen, -⟩ := common_cases part key
    · rw [drop_left]
      cases ks with
      | nil => rfl
      | cons k ks =>
        obtain ⟨-, -, hk, -⟩ | ⟨hkid, -⟩ := kid_cases part d size off sz alloc nds k
        · have hkid := ih _ (hk ▸ h.kids k) fun hkid => hread (overread_kid (hk ▸ hkid))
          simp only [hkid]
        · simp only [hkid, Bool.false_eq_true, if_false]
    · have hlt : pre.length < (pre ++ p :: rest).length := by simp
      simp only [hlen, hlt, if_true]

theorem Ok.pop_cstr : nd.pop true key = nd.pop false key := by
  induction nd generalizing key with
  | null => rfl
  | node part d size off sz alloc nds ih =>
    rw [Node.pop, Node.pop, overruns_false, overruns_of_not_overread h hread]
    obtain rfl | ⟨k, ks, rfl⟩ | hpre := key_cases part key
    · rw [drop_length]
    · rw [drop_left]
      obtain ⟨-, -, hk, -⟩ | ⟨hkid, -⟩ := kid_cases part d size off sz alloc nds k
      · have hkid := ih _ (hk ▸ h.kids k) fun hkid => hread (overread_kid (hk ▸ hkid))
        simp only [hkid]
      · simp only [hkid, Bool.false_eq_true, if_false]
    · simp only [isPrefixOf_eq_false hpre, Bool.not_false, if_true]

end

end Calls

end ThingsDB.Smap.Node
