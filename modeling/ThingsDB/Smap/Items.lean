import ThingsDB.Smap.Pop

/-!
# Items of a tree

A walk over a node visits what is found below it, each key once and with all of its bytes.
-/

namespace ThingsDB.Smap.Node

open List

variable {α : Type}

theorem values_eq (nd : Node α) (buf : List Byte) : nd.values = (nd.items buf).map Prod.snd := by
  induction nd generalizing buf with
  | null => rfl
  | node part d size offset sz alloc nodes ih =>
    rw [values, items, map_append, map_map]
    congr 1
    · cases d <;> rfl
    · cases alloc with
      | false => rfl
      | true =>
        rw [if_pos rfl, if_pos rfl, map_flatMap]
        exact flatMap_congr fun i _ => ih i _

def walk (offset sz : ℕ) (nodes : ℕ → Node α) (buf : List Byte) : List (List Byte × α) :=
  (List.range (sz * 32)).flatMap fun i =>
    (nodes i).items (buf ++ [Fin.ofNat 256 (i + offset * 32)])

/-- The items of a node are what is found, with the bytes before the node. -/
def Listed (nd : Node α) : Prop :=
  ∀ buf : List Byte, ((nd.items buf).map Prod.fst).Nodup ∧
    ∀ key a, (key, a) ∈ nd.items buf ↔ ∃ s, key = buf ++ s ∧ nd.find s = some a

section Walk

variable {part : List Byte} {d : Option α} {size offset sz : ℕ} {nodes : ℕ → Node α}

theorem mem_walk (hwin : offset + sz ≤ 8) (hkids : ∀ i < sz * 32, Listed (nodes i))
    (buf key : List Byte) (a : α) :
    (key, a) ∈ walk offset sz nodes buf ↔ ∃ k ks, key = buf ++ k :: ks ∧
      ((Node.node part d size offset sz true nodes).kid k).find ks = some a := by
  rw [walk, mem_flatMap]
  constructor
  · rintro ⟨i, hi, hmem⟩
    rw [mem_range] at hi
    obtain ⟨s, rfl, hs⟩ := ((hkids i hi _).2 key a).mp hmem
    exact ⟨_, s, by rw [append_assoc]; rfl, by rw [kid_ofNat hwin hi, hs]⟩
  · rintro ⟨k, ks, rfl, hfind⟩
    by_cases hcov : covers offset sz true k = true
    · obtain ⟨hi, hk⟩ := index_of_covers hcov
      rw [kid_node_of_covers hcov] at hfind
      refine ⟨_, mem_range.mpr hi, ((hkids _ hi _).2 _ _).mpr ⟨ks, ?_, hfind⟩⟩
      rw [hk, append_assoc]
      rfl
    · rw [kid, if_neg hcov] at hfind
      cases hfind

/-- Keys of two child nodes differ in the byte of the node. -/
theorem nodup_walk (hwin : offset + sz ≤ 8) (hkids : ∀ i < sz * 32, Listed (nodes i))
    (buf : List Byte) : ((walk offset sz nodes buf).map Prod.fst).Nodup := by
  rw [walk, map_flatMap, nodup_flatMap]
  refine ⟨fun i hi => (hkids i (mem_range.mp hi) _).1, ?_⟩
  refine nodup_range.pairwise_of_forall_ne fun i hi j hj hne => ?_
  rw [mem_range] at hi hj
  intro key hkeyi hkeyj
  obtain ⟨⟨keyi, a⟩, hmemi, rfl⟩ := mem_map.mp hkeyi
  obtain ⟨⟨keyj, b⟩, hmemj, hkey⟩ := mem_map.mp hkeyj
  obtain ⟨s, rfl, -⟩ := ((hkids i hi _).2 _ _).mp hmemi
  obtain ⟨t, rfl, -⟩ := ((hkids j hj _).2 _ _).mp hmemj
  simp only at hkey
  rw [append_assoc, append_assoc, append_cancel_left_eq] at hkey
  have hbyte : (Fin.ofNat 256 (i + offset * 32) : Byte) = Fin.ofNat 256 (j + offset * 32) :=
    ((List.cons.inj hkey).1).symm
  have hval := congrArg Fin.val hbyte
  simp only [Fin.ofNat] at hval
  omega

end Walk

/-- A node is walked over if its child nodes are. -/
theorem listed_node {part : List Byte} {d : Option α} {size offset sz : ℕ} {alloc : Bool}
    {nodes : ℕ → Node α} (hwin : alloc → offset + sz ≤ 8)
    (hkids : ∀ k, Listed ((Node.node part d size offset sz alloc nodes).kid k)) :
    Listed (.node part d size offset sz alloc nodes) := by
  intro buf
  have hself : ∀ key a, (key, a) ∈ d.toList.map (fun a => (buf ++ part, a)) ↔
      key = buf ++ part ∧ d = some a := by
    intro key a
    cases d with
    | none => simp
    | some b => simp [eq_comm]
  obtain ⟨hnodup, hwalk⟩ : (((if alloc then walk offset sz nodes (buf ++ part) else []) :
        List (List Byte × α)).map Prod.fst).Nodup ∧
      ∀ key a, (key, a) ∈ (if alloc then walk offset sz nodes (buf ++ part) else []) ↔
        ∃ k ks, key = buf ++ part ++ k :: ks ∧
          ((Node.node part d size offset sz alloc nodes).kid k).find ks = some a := by
    cases alloc with
    | false => simp [kid, covers]
    | true =>
      have hentries : ∀ i < sz * 32, Listed (nodes i) := by
        intro i hi
        have hkid : (Node.node part d size offset sz true nodes).kid _ = nodes i :=
          kid_ofNat (hwin rfl) hi
        exact hkid ▸ hkids _
      exact ⟨nodup_walk (hwin rfl) hentries _, mem_walk (hwin rfl) hentries _⟩
  have hitems : (Node.node part d size offset sz alloc nodes).items buf =
      d.toList.map (fun a => (buf ++ part, a)) ++
        if alloc then walk offset sz nodes (buf ++ part) else [] := rfl
  rw [hitems]
  refine ⟨?_, fun key a => ?_⟩
  · rw [map_append, nodup_append']
    refine ⟨?_, hnodup, fun key hleft hright => ?_⟩
    · cases d <;> simp
    · obtain ⟨⟨key, a⟩, hmem, rfl⟩ := mem_map.mp hleft
      obtain ⟨⟨key', b⟩, hmem', hkey⟩ := mem_map.mp hright
      obtain ⟨rfl, -⟩ := (hself key a).mp hmem
      obtain ⟨k, ks, rfl, -⟩ := (hwalk key' b).mp hmem'
      simp at hkey
  · rw [mem_append, hself, hwalk]
    constructor
    · rintro (⟨rfl, rfl⟩ | ⟨k, ks, rfl, hfind⟩)
      · exact ⟨part, rfl, find_self⟩
      · exact ⟨part ++ k :: ks, by rw [append_assoc], by rw [find_append, hfind]⟩
    · rintro ⟨s, rfl, hfind⟩
      obtain rfl | ⟨k, ks, rfl⟩ | hpre := key_cases part s
      · rw [find_self] at hfind
        exact .inl ⟨rfl, hfind⟩
      · rw [find_append] at hfind
        exact .inr ⟨k, ks, by rw [append_assoc], hfind⟩
      · rw [find_of_not_start hpre] at hfind
        cases hfind

theorem Ok.listed {nd : Node α} (h : Ok nd) : Listed nd := by
  induction h with
  | null => exact fun buf => ⟨nodup_nil, by simp [items]⟩
  | node _ window _ _ ih => exact listed_node window ih

end ThingsDB.Smap.Node
