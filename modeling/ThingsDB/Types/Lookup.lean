import ThingsDB.Types.Schema

/-!
# Lookups after a change

The type with an id after a type is changed, added or dropped. The ids of types are
distinct, so that a type which is found by its name is also found by its id.
-/

namespace ThingsDB.Types

open List

variable {s : Schema} {t u : TypeRec} {id i : TypeId} {f : TypeRec → TypeRec}

def Schema.Distinct (s : Schema) : Prop := (s.types.map TypeRec.id).Nodup

theorem Schema.id_of_byId (h : s.byId id = some t) : t.id = id := by
  simpa using find?_some h

theorem Schema.mem_of_byId (h : s.byId id = some t) : t ∈ s.types := mem_of_find?_eq_some h

variable {name : Text}

theorem Schema.name_of_byName (h : s.byName name = some t) : t.name = name := by
  simpa using find?_some h

theorem Schema.mem_of_byName (h : s.byName name = some t) : t ∈ s.types :=
  mem_of_find?_eq_some h

theorem Schema.Distinct.byId_of_mem (h : s.Distinct) (ht : t ∈ s.types) : s.byId t.id = some t := by
  cases hfind : s.byId t.id with
  | none => simpa using find?_eq_none.mp hfind t ht
  | some u =>
    have hu := Schema.mem_of_byId hfind
    rw [inj_on_of_nodup_map h hu ht (Schema.id_of_byId hfind)]

theorem Schema.Distinct.byId_of_byName (h : s.Distinct)
    (ht : s.byName name = some t) : s.byId t.id = some t :=
  h.byId_of_mem (Schema.mem_of_byName ht)

variable {g : Field} {k : ℕ}

theorem TypeRec.getElem?_of_field? (h : t.field? name = some (k, g)) : t.fields[k]? = some g := by
  unfold TypeRec.field? at h
  split at h
  · cases h
  · obtain ⟨g', hg', hpair⟩ := Option.map_eq_some_iff.mp h
    cases hpair
    exact hg'

theorem TypeRec.lt_of_field? (h : t.field? name = some (k, g)) : k < t.fields.length :=
  (List.getElem?_eq_some_iff.mp (TypeRec.getElem?_of_field? h)).1

section Update

variable (hf : ∀ t, (f t).id = t.id)

include hf

theorem Schema.byId_update (u : TypeId) :
    (s.update id f).byId u = if u = id then (s.byId u).map f else s.byId u := by
  have hpred : (fun t : TypeRec => decide (t.id = u)) ∘ (fun t => if t.id = id then f t else t) =
      fun t => decide (t.id = u) := by
    funext t
    simp only [Function.comp]
    split_ifs
    · rw [hf]
    · rfl
  have hfind : (s.update id f).byId u = (s.byId u).map fun t => if t.id = id then f t else t := by
    rw [Schema.byId, Schema.byId, Schema.update, find?_map, hpred]
  rw [hfind]
  cases hu : s.byId u with
  | none => simp
  | some t =>
    rw [Option.map_some, Schema.id_of_byId hu]
    split_ifs
    · rfl
    · rfl

theorem Schema.byId_update_self (h : s.byId id = some t) :
    (s.update id f).byId id = some (f t) := by
  rw [Schema.byId_update hf, if_pos rfl, h]
  rfl

omit hf in
theorem Schema.byId_withMode (arg : WrapArg) (isNew : Bool) (h : s.byId id = some t) :
    (s.update id fun t => t.withMode (arg.mode isNew t.wrapOnly)).byId id =
      some (t.withMode (arg.mode isNew t.wrapOnly)) :=
  Schema.byId_update_self (f := fun t => t.withMode _) (fun _ => rfl) h

theorem Schema.ids_update : (s.update id f).types.map TypeRec.id = s.types.map TypeRec.id := by
  rw [Schema.update, map_map]
  apply map_congr_left
  intro t _
  simp only [Function.comp]
  split_ifs
  · exact hf t
  · rfl

theorem Schema.Distinct.update (h : s.Distinct) : (s.update id f).Distinct := by
  rw [Schema.Distinct, Schema.ids_update hf]
  exact h

end Update

theorem Schema.byId_create (h : s.byId id = none) (u : TypeId) :
    (s.create id name).byId u = if u = id then some (.new id name) else s.byId u := by
  rw [Schema.byId, Schema.create, find?_append]
  split_ifs with hu
  · subst hu
    have hfind : s.types.find? (fun v => decide (v.id = u)) = none := h
    rw [hfind]
    simp [TypeRec.new]
  · have hne : id ≠ u := fun heq => hu heq.symm
    simp [Schema.byId, TypeRec.new, hne]

theorem Schema.Distinct.create (hs : s.Distinct) (h : s.byId id = none) :
    (s.create id name).Distinct := by
  have hnew : id ∉ s.types.map TypeRec.id := by
    intro hmem
    obtain ⟨u, hu, hid⟩ := mem_map.mp hmem
    simpa [hid] using find?_eq_none.mp h u hu
  rw [Schema.Distinct, Schema.create, map_append]
  apply nodup_append.mpr ⟨hs, nodup_singleton _, _⟩
  intro i hi j hj hij
  exact hnew (by rwa [hij, mem_singleton.mp hj] at hi)

theorem Schema.byId_drop (u : TypeId) : (s.drop id).byId u = if u = id then none else s.byId u := by
  unfold Schema.drop
  split
  · next hnone =>
    split_ifs with hu
    · rw [hu, hnone]
    · rfl
  · next t ht =>
    rw [Schema.byId, find?_filter]
    split_ifs with hu
    · subst hu
      simp
    · apply congrArg (fun p => s.types.find? p)
      funext v
      by_cases hv : v.id = u
      · simp [hv, hu]
      · simp [hv]

theorem Schema.Distinct.drop (h : s.Distinct) (id : TypeId) : (s.drop id).Distinct := by
  unfold Schema.drop
  split
  · exact h
  · exact List.Nodup.sublist (filter_sublist.map TypeRec.id) h

end ThingsDB.Types
