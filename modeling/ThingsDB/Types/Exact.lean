import ThingsDB.Lib.Transition
import ThingsDB.Types.Countable
import ThingsDB.Types.Lookup

/-!
# The counts of all types

`refcount` of a type is the number of times it is a dependency, of the types and of the types
without a name which belong to their fields. This is kept by every call with declarations
which are counted, so that a type is only deleted if no field names it.
-/

namespace ThingsDB.Types

open Util Transition List

variable {L : Lang} {reserved : Text → Bool} {fuel : ℕ} {s : Schema} {t u : TypeRec} {id : TypeId}
  {f : TypeRec → TypeRec} {c : Counts} {fields : List Field} {tgt : Target}

variable {g : Field} {l : List TypeRec} {i : TypeId} {arg : WrapArg} {instances : Bool}

section Total

/-- How often a target is a dependency of a type and of what is below its fields. -/
def TypeRec.occs (tgt : Target) (t : TypeRec) : ℕ := t.deps.count tgt + fieldsOccs tgt t.fields

def Schema.total (s : Schema) (tgt : Target) : ℕ := (s.types.map (TypeRec.occs tgt)).sum

theorem map_replace_of_not_mem (h : id ∉ l.map TypeRec.id) :
    (l.map fun u => if u.id = id then f u else u) = l := by
  conv_rhs => rw [← map_id l]
  apply map_congr_left
  intro u hu
  exact if_neg fun heq : u.id = id => h (heq ▸ mem_map_of_mem hu)

section

variable (hnd : (l.map TypeRec.id).Nodup) (ht : t ∈ l) (F : TypeRec → ℕ)

include hnd ht F

theorem sum_map_replace :
    ((l.map fun u => if u.id = t.id then f u else u).map F).sum + F t =
      (l.map F).sum + F (f t) := by
  induction l with
  | nil => cases ht
  | cons u l ih =>
    rw [map_cons, nodup_cons] at hnd
    rcases mem_cons.mp ht with rfl | hmem
    · rw [map_cons, if_pos rfl, map_replace_of_not_mem hnd.1]
      simp only [map_cons, sum_cons]
      omega
    · have hne : u.id ≠ t.id := fun heq => hnd.1 (heq ▸ mem_map_of_mem hmem)
      have hrest := ih hnd.2 hmem
      rw [map_cons, if_neg hne]
      simp only [map_cons, sum_cons]
      omega

theorem sum_map_filter : ((l.filter fun u => u.id ≠ t.id).map F).sum + F t = (l.map F).sum := by
  induction l with
  | nil => cases ht
  | cons u l ih =>
    rw [map_cons, nodup_cons] at hnd
    rcases mem_cons.mp ht with rfl | hmem
    · have hkeep : (l.filter fun u => u.id ≠ t.id) = l := by
        apply filter_eq_self.mpr
        intro u hu
        simpa using fun heq : u.id = t.id => hnd.1 (heq ▸ mem_map_of_mem hu)
      simp only [filter_cons, ne_eq, not_true_eq_false, decide_false, Bool.false_eq_true,
        if_false, map_cons, sum_cons]
      rw [show (l.filter fun u => decide (¬u.id = t.id)) = l from hkeep]
      omega
    · have hne : u.id ≠ t.id := fun heq => hnd.1 (heq ▸ mem_map_of_mem hmem)
      have hrest := ih hnd.2 hmem
      rw [filter_cons_of_pos (by simpa using hne)]
      simp only [map_cons, sum_cons]
      omega

end

theorem TypeRec.occs_le_total (ht : t ∈ s.types) (tgt : Target) : t.occs tgt ≤ s.total tgt :=
  le_sum_of_mem (mem_map_of_mem ht)

end Total

structure Schema.Exact (s : Schema) : Prop where
  distinct : s.Distinct
  /-- The dependencies of a type are what its fields name, without the type itself. -/
  deps : ∀ t ∈ s.types, t.deps.Perm (others (some t.id) t.fields)
  selfref : ∀ t ∈ s.types, t.selfref = selfCount (some t.id) t.fields
  small : ∀ t ∈ s.types, t.selfref < 256
  nested : ∀ t ∈ s.types, AllExact t.fields
  refcount : ∀ tgt, s.refcount tgt = s.total tgt
  /-- A dependency is a type which exists. -/
  known : ∀ t ∈ s.types, ∀ i, 0 < t.occs (.type i) → (s.byId i).isSome = true

/-- The part of this for one type. -/
structure TypeRec.Counted (K : TypeId → Prop) (t : TypeRec) : Prop where
  deps : t.deps.Perm (others (some t.id) t.fields)
  selfref : t.selfref = selfCount (some t.id) t.fields
  small : t.selfref < 256
  nested : AllExact t.fields
  known : ∀ i, 0 < t.occs (.type i) → K i

theorem Schema.exact_of_counted (hd : s.Distinct)
    (hall : ∀ t ∈ s.types, t.Counted fun i => (s.byId i).isSome = true)
    (hsum : ∀ tgt, s.refcount tgt = s.total tgt) : s.Exact :=
  ⟨hd, fun t ht => (hall t ht).deps, fun t ht => (hall t ht).selfref,
    fun t ht => (hall t ht).small, fun t ht => (hall t ht).nested, hsum,
    fun t ht => (hall t ht).known⟩

namespace Schema.Exact

theorem counted (h : s.Exact) (ht : t ∈ s.types) : t.Counted fun i => (s.byId i).isSome = true :=
  ⟨h.deps t ht, h.selfref t ht, h.small t ht, h.nested t ht, h.known t ht⟩

/-- The counts of one type, where `refcount` is what the others add to it. -/
theorem tracks (h : s.Exact) (ht : t ∈ s.types) :
    Tracks (some t.id) (fun i => (s.byId i).isSome = true) (fun tgt => s.refcount tgt - t.occs tgt)
      t.fields (t.counts s.refcount) where
  deps := h.deps t ht
  selfref := h.selfref t ht
  small := h.small t ht
  refcount tgt := by
    simp only [TypeRec.counts, TypeRec.occs]
    push_cast
    omega
  known := h.known t ht

theorem owns (h : s.Exact) (ht : s.byId t.id = some t) : t.ctx.Owns (s.env L fuel) := by
  intro i hi word hword
  cases hi
  obtain ⟨u, hu, hid⟩ := Option.map_eq_some_iff.mp hword
  have hbyId := h.distinct.byId_of_byName hu
  rw [hid, ht] at hbyId
  rw [Option.some.inj hbyId]
  exact (Schema.name_of_byName hu).symm

end Schema.Exact

theorem isSome_of_known (h : s.Distinct) (hi : (s.env L fuel).Known i) : (s.byId i).isSome := by
  obtain ⟨word, hword⟩ := hi
  obtain ⟨u, hu, rfl⟩ := Option.map_eq_some_iff.mp hword
  rw [h.byId_of_byName hu]
  rfl

theorem Schema.mem_update {v : TypeRec} (hv : v ∈ (s.update id f).types) :
    (∃ u ∈ s.types, u.id = id ∧ v = f u) ∨ (v ∈ s.types ∧ v.id ≠ id) := by
  obtain ⟨u, hu, rfl⟩ := mem_map.mp hv
  by_cases hid : u.id = id
  · exact Or.inl ⟨u, hu, hid, if_pos hid⟩
  · exact Or.inr (by rw [if_neg hid]; exact ⟨hu, hid⟩)

theorem Schema.isSome_byId_update (hf : ∀ t, (f t).id = t.id) :
    ((s.update id f).byId i).isSome = (s.byId i).isSome := by
  rw [Schema.byId_update hf]
  split_ifs
  · exact Option.isSome_map
  · rfl

/-- Fields which are the same for the counts. -/
structure SameCounts (fs gs : List Field) : Prop where
  others : ∀ own, Types.others own fs = Types.others own gs
  selfCount : ∀ own, Types.selfCount own fs = Types.selfCount own gs
  occs : ∀ tgt, fieldsOccs tgt fs = fieldsOccs tgt gs
  exact : AllExact fs ↔ AllExact gs

theorem SameCounts.refl (fs : List Field) : SameCounts fs fs :=
  ⟨fun _ => rfl, fun _ => rfl, fun _ => rfl, Iff.rfl⟩

theorem sameCounts_rename (name : Text) (i : ℕ) (fs : List Field) :
    SameCounts (fs.modify i (Field.rename name)) fs := by
  have htarget : ∀ g : Field, (g.rename name).target? = g.target? := fun g => by cases g <;> rfl
  have hoccs : ∀ (g : Field) tgt, (g.rename name).occs tgt = g.occs tgt := fun g tgt => by
    cases g <;> simp [Field.rename, Field.occs]
  have hexact : ∀ g : Field, (g.rename name).Exact ↔ g.Exact := fun g => by
    cases g <;> simp [Field.rename, Field.Exact]
  induction fs generalizing i with
  | nil => simpa using SameCounts.refl []
  | cons g fs ih =>
    cases i with
    | zero =>
      rw [modify_zero_cons]
      constructor
      case others =>
        intro own
        rw [others_cons, others_cons, Field.other?, Field.other?, htarget]
      case selfCount =>
        intro own
        rw [selfCount_cons, selfCount_cons, Field.isSelf, Field.isSelf, htarget]
      case occs =>
        intro tgt
        rw [fieldsOccs, fieldsOccs, hoccs]
      case exact => rw [AllExact, AllExact, hexact]
    | succ i =>
      rw [modify_succ_cons]
      have hrest := ih i
      constructor
      case others =>
        intro own
        rw [others_cons, others_cons, hrest.others]
      case selfCount =>
        intro own
        rw [selfCount_cons, selfCount_cons, hrest.selfCount]
      case occs =>
        intro tgt
        rw [fieldsOccs, fieldsOccs, hrest.occs]
      case exact => rw [AllExact, AllExact, hrest.exact]

namespace Schema.Exact

theorem put (h : s.Exact) (ht : s.byId t.id = some t) (hall : AllExact fields)
    (htracks : Tracks (some t.id) (fun i => (s.byId i).isSome = true)
      (fun tgt => s.refcount tgt - t.occs tgt) fields c) : (s.put t c fields).Exact := by
  have hmem := Schema.mem_of_byId ht
  have hid : ∀ u : TypeRec, ({ u with deps := c.deps, selfref := c.selfref, fields := fields } :
      TypeRec).id = u.id := fun _ => rfl
  have hsum : ∀ tgt, (s.put t c fields).total tgt + t.occs tgt =
      s.total tgt + (c.deps.count tgt + fieldsOccs tgt fields) :=
    fun tgt => sum_map_replace h.distinct hmem (TypeRec.occs tgt)
  refine exact_of_counted (h.distinct.update hid) (fun v hv => ?_) fun tgt => ?_
  · rw [show (fun i => ((s.put t c fields).byId i).isSome = true) =
      fun i => (s.byId i).isSome = true from funext fun i =>
        congrArg (· = true) (Schema.isSome_byId_update hid)]
    rcases Schema.mem_update hv with ⟨u, hu, huid, rfl⟩ | ⟨hv, -⟩
    · have hbyId := h.distinct.byId_of_mem hu
      rw [huid, ht] at hbyId
      obtain rfl := Option.some.inj hbyId
      exact ⟨htracks.deps, htracks.selfref, htracks.small, hall, htracks.known⟩
    · exact h.counted hv
  · have hnew := htracks.refcount tgt
    have hold := h.refcount tgt
    have htotal := hsum tgt
    change c.refcount tgt = _
    omega

theorem update_same (h : s.Exact)
    (hfields : ∀ u, SameCounts (f u).fields u.fields := by exact fun _ => .refl _)
    (hid : ∀ u, (f u).id = u.id := by exact fun _ => rfl)
    (hdeps : ∀ u, (f u).deps = u.deps := by exact fun _ => rfl)
    (hself : ∀ u, (f u).selfref = u.selfref := by exact fun _ => rfl) : (s.update id f).Exact := by
  have htotal : ∀ tgt, (s.update id f).total tgt = s.total tgt := by
    intro tgt
    rw [Schema.total, Schema.update, map_map]
    refine congrArg sum (map_congr_left fun u _ => ?_)
    simp only [Function.comp]
    split_ifs
    · simp only [TypeRec.occs, hdeps, (hfields u).occs]
    · rfl
  refine exact_of_counted (h.distinct.update hid) (fun v hv => ?_)
    fun tgt => (h.refcount tgt).trans (by rw [htotal])
  simp only [Schema.isSome_byId_update hid]
  rcases Schema.mem_update hv with ⟨u, hu, -, rfl⟩ | ⟨hv, -⟩
  · have hcounted := h.counted hu
    constructor
    · rw [hid, hdeps, (hfields u).others]
      exact hcounted.deps
    · rw [hid, hself, (hfields u).selfCount]
      exact hcounted.selfref
    · rw [hself]
      exact hcounted.small
    · exact (hfields u).exact.mpr hcounted.nested
    · intro i hi
      apply hcounted.known i
      rwa [TypeRec.occs, hdeps, (hfields u).occs] at hi
  · exact h.counted hv

theorem total_eq_zero (h : s.Exact) (hi : s.byId i = none) : s.total (.type i) = 0 := by
  rw [Schema.total, List.sum_eq_zero_iff_forall_eq_nat]
  intro n hn
  obtain ⟨u, hu, rfl⟩ := List.mem_map.mp hn
  by_contra hne
  simpa [hi] using h.known u hu i (Nat.pos_of_ne_zero hne)

theorem create {name : Text} (h : s.Exact) (hid : s.byId id = none) : (s.create id name).Exact := by
  have hcases : ∀ v ∈ (s.create id name).types, v ∈ s.types ∨ v = .new id name := by
    intro v hv
    simpa [Schema.create] using hv
  have hzero : ∀ tgt, (TypeRec.new id name).occs tgt = 0 := fun _ => rfl
  have htotal : ∀ tgt, (s.create id name).total tgt = s.total tgt := by
    intro tgt
    simp [Schema.total, Schema.create, hzero]
  refine exact_of_counted (h.distinct.create hid) (fun v hv => ?_) fun tgt => ?_
  · rcases hcases v hv with hv | rfl
    · refine { h.counted hv with known := fun i hi => ?_ }
      rw [Schema.byId_create hid]
      split_ifs
      · rfl
      · exact h.known v hv i hi
    · exact ⟨List.Perm.refl _, rfl, Nat.zero_lt_succ _, trivial,
        fun i hi => absurd hi (Nat.lt_irrefl 0)⟩
  · rw [htotal]
    by_cases htgt : tgt = .type id
    · simp [Schema.create, htgt, h.total_eq_zero hid]
    · simp [Schema.create, htgt, h.refcount tgt]

theorem drop (h : s.Exact) (hzero : s.refcount (.type id) = 0) : (s.drop id).Exact := by
  cases ht : s.byId id with
  | none =>
    rw [Schema.drop, ht]
    exact h
  | some t =>
    have htid := Schema.id_of_byId ht
    have hmem := Schema.mem_of_byId ht
    have htypes : (s.drop id).types = s.types.filter fun u => u.id ≠ id := by rw [Schema.drop, ht]
    have hkeep : ∀ v ∈ (s.drop id).types, v ∈ s.types := by
      intro v hv
      rw [htypes] at hv
      exact (mem_filter.mp hv).1
    have htotal : ∀ tgt, (s.drop id).total tgt + t.occs tgt = s.total tgt := by
      intro tgt
      rw [Schema.total, htypes, ← htid]
      exact sum_map_filter h.distinct hmem (TypeRec.occs tgt)
    refine exact_of_counted (h.distinct.drop id) (fun v hv => ?_) fun tgt => ?_
    · refine { h.counted (hkeep v hv) with known := fun i hi => ?_ }
      rw [Schema.byId_drop, if_neg]
      · exact h.known v (hkeep v hv) i hi
      · rintro rfl
        have hle := TypeRec.occs_le_total (hkeep v hv) (.type i)
        have hcount := h.refcount (.type i)
        omega
    · have hold := h.refcount tgt
      have hsum := htotal tgt
      have hnew : (s.drop id).refcount tgt = s.refcount tgt - t.occs tgt := by
        simp only [Schema.drop, ht, dropConds_eq, decAll, TypeRec.occs]
        push_cast
        omega
      omega

end Schema.Exact

section Calls

variable {name : Text} {D : Decl} {props : Props}

/-- What others add to `refcount`. -/
def Schema.baseOf (s : Schema) (t : TypeRec) : Target → ℤ := fun tgt => s.refcount tgt - t.occs tgt

theorem tracked_build (h : s.Exact) (ht : s.byId t.id = some t) :
    (t.build s.refcount).Tracked (some t.id) (fun i => (s.byId i).isSome = true) (s.baseOf t) :=
  ⟨h.tracks (Schema.mem_of_byId ht), h.nested t (Schema.mem_of_byId ht)⟩

theorem exact_initFromThing (L : Lang) (fuel : ℕ) (h : s.Exact) (ht : s.byId t.id = some t)
    (hprops : props.countable t.wrapOnly false t.name) :
    (s.initFromThing L fuel t props).1.Exact ∧
      (t.fields = [] → (s.initFromThing L fuel t props).2 ≠ none →
        (s.initFromThing L fuel t props).1.refcount = s.refcount) := by
  have hbuild : (initProps (s.env L fuel) t.ctx (t.build s.refcount) props).1.Tracked (some t.id)
      (fun i => (s.byId i).isSome = true) (s.baseOf t) :=
    tracked_initProps (h.owns ht) (fun i => isSome_of_known h.distinct) (tracked_build h ht) props
      hprops
  unfold Schema.initFromThing
  simp only
  split
  · constructor
    · exact (h.put ht hbuild.exact hbuild.tracks).update_same
    · exact fun _ hne => absurd rfl hne
  · have hclean := hbuild.cleanup
    constructor
    · exact (h.put ht (allExact_iff.mpr (by simp)) hclean).update_same
    · intro hfields _
      have hdeps : t.deps = [] := by
        have hperm := h.deps t (Schema.mem_of_byId ht)
        rw [hfields] at hperm
        exact perm_nil.mp hperm
      change (Build.cleanup _ _).refcount = _
      rw [hclean.nil_refcount]
      funext tgt
      simp [Schema.baseOf, TypeRec.occs, hdeps, hfields, fieldsOccs]

theorem exact_setFields (L : Lang) (fuel : ℕ) {isNew : Bool} (instances : Bool) (h : s.Exact)
    (ht : s.byId id = some t) (hprops : props.countable (arg.mode isNew t.wrapOnly) false t.name) :
    (s.setFields L fuel id props arg isNew instances).1.Exact ∧
      (t.fields = [] → (s.setFields L fuel id props arg isNew instances).2 ≠ none →
        (s.setFields L fuel id props arg isNew instances).1.refcount = s.refcount) := by
  unfold Schema.setFields
  split_ifs
  · exact ⟨h, fun _ _ => rfl⟩
  · exact ⟨h, fun _ _ => rfl⟩
  · have hmode : (s.update id fun t => t.withMode (arg.mode isNew t.wrapOnly)).Exact :=
      h.update_same
    have hbyId := Schema.byId_withMode arg isNew ht
    obtain rfl : t.id = id := Schema.id_of_byId ht
    have hinit := exact_initFromThing L fuel (t := t.withMode (arg.mode isNew t.wrapOnly))
      hmode hbyId hprops
    simp only [hbyId]
    split
    · next heq =>
      rw [heq] at hinit
      exact ⟨hinit.1, fun _ hne => absurd rfl hne⟩
    · next heq =>
      rw [heq] at hinit
      exact ⟨hinit.1, fun hfields _ => hinit.2 hfields (by simp)⟩

theorem exact_setType (h : s.Exact) (hprops : props.countable (s.modeFor name arg) false name) :
    (s.setType L reserved fuel name props arg instances).1.Exact := by
  unfold Schema.setType
  cases hname : s.byName name with
  | some t =>
    simp only
    split_ifs
    · exact h
    · apply (exact_setFields L fuel instances h (h.distinct.byId_of_byName hname) _).1
      simpa [Schema.modeFor, hname, Schema.name_of_byName hname] using hprops
  | none =>
    simp only
    split_ifs
    · exact h
    · exact h
    · exact h
    cases hid : s.newId name with
    | none => exact h
    | some id =>
      simp only
      split_ifs with hused
      · exact h
      · have hfree : s.byId id = none := by simpa using hused
        have hbyId : (s.create id name).byId id = some (.new id name) := by
          rw [Schema.byId_create hfree, if_pos rfl]
        have hmode : props.countable (arg.mode true (TypeRec.new id name).wrapOnly) false
            (TypeRec.new id name).name = true := by
          simpa [Schema.modeFor, hname, TypeRec.new] using hprops
        have hset := exact_setFields L fuel instances (h.create hfree) hbyId hmode
        split
        · next heq =>
          rw [heq] at hset
          exact hset.1
        · next heq =>
          rw [heq] at hset
          apply hset.1.drop
          rw [hset.2 rfl (by simp)]
          exact Function.update_self _ _ _

theorem exact_delType (h : s.Exact) : (s.delType name).1.Exact := by
  unfold Schema.delType
  split
  · exact h
  · split_ifs with hzero
    · exact h
    · exact h.drop (not_not.mp hzero)

theorem exact_modWpo {wpo : Bool} (h : s.Exact) : (s.modWpo t wpo instances).1.Exact := by
  unfold Schema.modWpo
  split
  · exact h
  split
  · exact h
  split
  · exact h
  split
  · exact h
  · exact h.update_same

theorem exact_modRen {newName : Text} (h : s.Exact) : (s.modRen t name newName).1.Exact := by
  unfold Schema.modRen
  split
  · exact h
  split
  · exact h
  split
  · exact h
  split
  · exact h
  split
  · exact h.update_same fun u => sameCounts_rename newName _ u.fields
  · split
    · exact h.update_same
    · exact h.update_same

/-- A field which was counted before is counted again. -/
theorem Tracks.restore {own : Option TypeId} {K : TypeId → Prop} {base : Target → ℤ}
    {fs : List Field} {c' : Counts} (h : Tracks own K base (g :: fs) c)
    (h' : Tracks own K (fun tgt => base tgt + g.occs tgt) fs c') :
    Tracks own K base (g :: fs) (c'.addDep own g) := by
  apply h'.addDep
  · intro hself
    have hs := h.small
    rw [h.selfref, selfCount_cons, if_pos hself] at hs
    rw [h'.selfref]
    omega
  · intro i hi
    apply h.known i
    rw [h.deps.count_eq, others_cons, hi]
    simp only [Option.toList_some, count_append, count_singleton_self]
    omega
  · intro i hi
    apply h.known i
    rw [fieldsOccs]
    omega

section

variable (h : s.Exact) (ht : s.byId t.id = some t)

include h ht

theorem Schema.Exact.put_set {g' : Field} {i : ℕ}
    (hg : t.fields[i]? = some g) (hg' : g'.Exact)
    (htracks : Tracks (some t.id) (fun i => (s.byId i).isSome = true) (s.baseOf t)
      (g' :: t.fields.eraseIdx i) c) : (s.put t c (t.fields.set i g')).Exact := by
  obtain ⟨hi, -⟩ := List.getElem?_eq_some_iff.mp hg
  have hall := allExact_iff.mp (h.nested t (Schema.mem_of_byId ht))
  apply h.put ht
  · apply allExact_iff.mpr
    intro k hk
    rcases mem_or_eq_of_mem_set hk with hk | rfl
    · exact hall k hk
    · exact hg'
  · exact htracks.perm (set_perm_cons_eraseIdx hi g').symm

theorem Schema.Exact.tracks_cons {i : ℕ} (hg : t.fields[i]? = some g) :
    Tracks (some t.id) (fun i => (s.byId i).isSome = true) (s.baseOf t)
      (g :: t.fields.eraseIdx i) (t.counts s.refcount) := by
  obtain ⟨hi, rfl⟩ := List.getElem?_eq_some_iff.mp hg
  exact (h.tracks (Schema.mem_of_byId ht)).perm (getElem_cons_eraseIdx_perm hi).symm

theorem Schema.Exact.put_same {i : ℕ}
    (hg : t.fields[i]? = some g)
    (htracks : Tracks (some t.id) (fun i => (s.byId i).isSome = true) (s.baseOf t)
      (g :: t.fields.eraseIdx i) c) : (s.put t c t.fields).Exact := by
  obtain ⟨hi, rfl⟩ := List.getElem?_eq_some_iff.mp hg
  exact h.put ht (h.nested t (Schema.mem_of_byId ht))
    (htracks.perm (getElem_cons_eraseIdx_perm hi))

end

theorem settles_env (L : Lang) (fuel : ℕ) (h : s.Exact) (ht : s.byId t.id = some t)
    (hD : D.countable true false t.name) (name : Text) (c : Counts) :
    Settles (fun i => (s.byId i).isSome = true) (some t.id) c
      (initDecl (s.env L fuel) t.ctx name c D) :=
  settles_initDecl (x := t.ctx) (h.owns ht) (fun _ => isSome_of_known h.distinct) D hD

section

variable (h : s.Exact) (ht : s.byId t.id = some t)

include h ht

theorem exact_fieldMod {i : ℕ} {compatible : Bool} (hg : t.fields[i]? = some g)
    (hD : D.countable true false t.name) : (s.fieldMod L fuel t i g D compatible).1.Exact := by
  have htracks := h.tracks_cons ht hg
  have hsettles := settles_env L fuel h ht hD g.name
    ((t.counts s.refcount).removeDep (some t.id) g)
  unfold Schema.fieldMod
  simp only
  split
  · next heq =>
    rw [heq] at hsettles
    obtain rfl := hsettles
    exact h.put_same ht hg (htracks.restore htracks.removeDep)
  · next heq =>
    rw [heq] at hsettles
    have hnew := htracks.removeDep.counted hsettles
    split_ifs
    · exact h.put_set ht hg hsettles.exact hnew.dropCond
    · exact h.put_same ht hg (htracks.restore hnew.remove)

theorem exact_fieldModCallback {i : ℕ} {text : Text}
    (hg : t.fields[i]? = some g) (hD : (Decl.str text).countable true false t.name) :
    (s.fieldModCallback L fuel t i g text).1.Exact := by
  have htracks := h.tracks_cons ht hg
  have hsettles := settles_env L fuel h ht hD g.name (t.counts s.refcount)
  unfold Schema.fieldModCallback
  split
  · next heq =>
    rw [heq] at hsettles
    obtain rfl := hsettles
    exact h.put_same ht hg htracks
  · next heq =>
    rw [heq] at hsettles
    -- the new field is counted next to the old one
    have hboth := (htracks.counted hsettles).perm (List.Perm.swap g _ _)
    exact h.put_set ht hg hsettles.exact hboth.remove

theorem exact_modDel : (s.modDel t name).1.Exact := by
  unfold Schema.modDel
  split
  · exact h.update_same
  split
  · next i g hfield =>
    have hperm := vecSwapRemove_perm t.fields i (TypeRec.lt_of_field? hfield)
    have htracks := h.tracks_cons ht (TypeRec.getElem?_of_field? hfield)
    apply h.put ht
    · have hall := allExact_iff.mp (h.nested t (Schema.mem_of_byId ht))
      exact allExact_iff.mpr fun k hk => hall k (mem_of_mem_eraseIdx (hperm.mem_iff.mp hk))
    · exact htracks.remove.perm hperm.symm
  · split
    · exact h.update_same
    · exact h

end

theorem assign_fields (x : Ctx) (m : Build) (name : Text) (D : Decl)
    (r : Counts × Except DeclError Field) :
    (assign x m name D r).1.fields = m.fields ∨
      (assign x m name D r).2 = none ∧ ∃ g, (assign x m name D r).1.fields = m.fields ++ [g] := by
  obtain ⟨e, heq, -⟩ | ⟨m', heq, hf, -⟩ | ⟨-, heq⟩ := assign_cases x m name D r
  · exact Or.inl (by rw [heq])
  · exact Or.inl (by rw [heq, hf])
  · rw [heq]
    obtain ⟨c, e | g⟩ := r
    · exact Or.inl rfl
    · exact Or.inr ⟨rfl, g, rfl⟩

theorem exact_modAdd {assignable : Bool} (h : s.Exact) (ht : s.byId t.id = some t)
    (hD : D.countable t.wrapOnly false t.name) : (s.modAdd L fuel t name D assignable).1.Exact := by
  unfold Schema.modAdd
  split
  · exact h
  have hassign : (assign t.ctx (t.build s.refcount) name D (initDecl (s.env L fuel) t.ctx name
      (t.counts s.refcount) D)).1.Tracked (some t.id) (fun i => (s.byId i).isSome = true)
      (s.baseOf t) :=
    (tracked_build h ht).assign hD fun hD => settles_env L fuel h ht hD name _
  have hcases := assign_fields t.ctx (t.build s.refcount) name D
    (initDecl (s.env L fuel) t.ctx name (t.counts s.refcount) D)
  generalize assign t.ctx (t.build s.refcount) name D (initDecl (s.env L fuel) t.ctx name
    (t.counts s.refcount) D) = r at hassign hcases
  have hold := h.nested t (Schema.mem_of_byId ht)
  simp only
  split
  · next e he =>
    rcases hcases with hsame | ⟨hnone, -⟩
    · have htracks := hassign.tracks
      rw [hsame] at htracks
      exact h.put ht hold htracks
    · rw [hnone] at he
      cases he
  · split
    · next g rest hdrop =>
      split_ifs
      · exact h.put ht hassign.exact hassign.tracks
      · rcases hcases with hsame | ⟨-, g', happend⟩
        · simp [hsame, TypeRec.build] at hdrop
        · have hg : g' = g := by
            simp [happend, TypeRec.build] at hdrop
            exact hdrop.1
          have htracks := hassign.tracks
          rw [happend, hg] at htracks
          exact h.put ht hold (htracks.perm (perm_append_singleton g _)).remove
    · exact h.update_same

/-- The declarations of a call are counted. The mode is the one which the call gives to the
type. -/
def Schema.CountableCall (s : Schema) : Call → Prop
  | .setType name props arg _ => props.countable (s.modeFor name arg) false name = true
  | .modType name (.add _ D _) | .modType name (.mod _ D _) =>
    D.countable ((s.byName name).any TypeRec.wrapOnly) false name = true
  | .modType name (.modCallback _ text) => countableText false name text = true
  | _ => True

instance (s : Schema) (c : Call) : Decidable (s.CountableCall c) :=
  match c with
  | .setType _ _ _ _ => inferInstanceAs (Decidable (_ = true))
  | .modType _ (.add _ _ _) | .modType _ (.mod _ _ _) | .modType _ (.modCallback _ _) =>
    inferInstanceAs (Decidable (_ = true))
  | .modType _ (.del _) | .modType _ (.ren _ _) | .modType _ (.wpo _ _) | .delType _ =>
    inferInstanceAs (Decidable True)

theorem countable_of_modDeclErr (hD : D.countable t.wrapOnly false t.name)
    (hmod : modDeclErr t D = none) : D.countable true false t.name := by
  have hwpo : modDeclErr t (.thing .nil) = none → t.wrapOnly = true := by
    intro h
    by_contra hne
    simp [modDeclErr, hne] at h
  cases D with
  | thing props => rwa [hwpo hmod] at hD
  | one D =>
    cases D with
    | thing props => rwa [hwpo hmod] at hD
    | _ => rfl
  | str text => exact hD
  | _ => rfl

theorem exact_methodMod (h : s.Exact) : (s.methodMod t name D).1.Exact := by
  unfold Schema.methodMod
  split_ifs
  · exact h
  · exact h
  split
  · exact h.update_same
  · exact h
  · exact h

theorem exact_modType {mod : Mod} (h : s.Exact) (hname : s.byName name = some t)
    (hc : s.CountableCall (.modType name mod)) : (s.modType L fuel t mod).1.Exact := by
  have ht := h.distinct.byId_of_byName hname
  have htname := Schema.name_of_byName hname
  cases mod with
  | add prop D assignable =>
    apply exact_modAdd h ht
    simpa [Schema.CountableCall, hname, htname] using hc
  | mod prop D compatible =>
    unfold Schema.modType
    simp only
    split
    · exact exact_methodMod h
    · exact h
    · next hfield hmod =>
      apply exact_fieldMod h ht (TypeRec.getElem?_of_field? hfield)
      apply countable_of_modDeclErr _ hmod
      simpa [Schema.CountableCall, hname, htname] using hc
  | modCallback prop text =>
    unfold Schema.modType
    simp only
    split
    · exact exact_methodMod h
    · next hfield =>
      split_ifs
      · exact h
      · apply exact_fieldModCallback h ht (TypeRec.getElem?_of_field? hfield)
        simpa [Schema.CountableCall, Decl.countable, htname] using hc
  | del prop => exact exact_modDel h ht
  | ren prop newProp => exact exact_modRen h
  | wpo wpo instances => exact exact_modWpo h

theorem exact_call {call : Call} (h : s.Exact) (hc : s.CountableCall call) :
    (s.call L reserved fuel call).1.Exact := by
  cases call with
  | setType name props arg instances => exact exact_setType h hc
  | modType name mod =>
    unfold Schema.call
    simp only
    split
    · exact h
    · next hname => exact exact_modType h hname hc
  | delType name => exact exact_delType h

end Calls

section Run

theorem Schema.exact_of_types_nil (htypes : s.types = []) (hzero : ∀ tgt, s.refcount tgt = 0) :
    s.Exact := by
  have hmem : ∀ t, t ∉ s.types := fun t => by simp [htypes]
  refine exact_of_counted (by simp [Schema.Distinct, htypes]) (fun t ht => absurd ht (hmem t)) ?_
  simp [Schema.total, htypes, hzero]

theorem Schema.Exact.named (h : s.Exact) (ht : t ∈ s.types) (hg : g ∈ t.fields)
    (hi : g.target? = some (.type i)) : (s.byId i).isSome := by
  by_cases hself : t.id = i
  · rw [← hself, h.distinct.byId_of_mem ht]
    rfl
  · apply h.known t ht i
    have hother : g.other? (some t.id) = some (.type i) := by simp [Field.other?, hi, hself]
    have hmem : .type i ∈ t.deps :=
      (h.deps t ht).mem_iff.mpr (mem_filterMap.mpr ⟨g, hg, hother⟩)
    have hcount := count_pos_iff.mpr hmem
    rw [TypeRec.occs]
    omega

/-- As long as all declarations are counted, the counts of all types are exact after every
call, and a field never names a type which is deleted. -/
theorem calls_exact {calls : List Call} {s' : Schema} (htypes : s.types = [])
    (hzero : ∀ tgt, s.refcount tgt = 0)
    (hc : Along (Schema.step L reserved fuel) Schema.CountableCall s calls)
    (hrun : run (Schema.step L reserved fuel) s calls = some s') :
    s'.Exact ∧ ∀ t ∈ s'.types, ∀ g ∈ t.fields, ∀ i, g.target? = some (.type i) →
      (s'.byId i).isSome = true := by
  have hexact : s'.Exact := by
    refine run_invariant_along (P := Schema.Exact) ?_ (Schema.exact_of_types_nil htypes hzero)
      hc hrun
    intro s c t hs hc hstep
    exact Option.some.inj hstep ▸ exact_call hs hc
  exact ⟨hexact, fun t ht g hg i hi => hexact.named ht hg hi⟩

/-- `set_type('A', {})`, `set_type('B', {a: 'A'})`, `set_type('W', {n: {x: 'int'}}, true)` and
`mod_type('W', 'del', 'n')`. -/
def nestedCalls : List Call :=
  [.setType ['A'] .nil .absent false,
    .setType ['B'] (.cons ['a'] (.str ['A']) .nil) .absent false,
    .setType ['W'] (.cons ['n'] (.thing (.cons ['x'] (.str ['i', 'n', 't']) .nil)) .nil)
      (.bool true) false,
    .modType ['W'] (.del ['n'])]

/-- A field with a nested structure is deleted, which takes a reference from the first type.
This type can be deleted then, although a field of another type names it. -/
theorem calls_not_exact :
    ∃ s', run (Schema.step noLang (fun _ => false) 0x4000) .empty nestedCalls = some s' ∧
      s'.refcount (.type 0) = 0 ∧ s'.total (.type 0) = 1 ∧
      (s'.delType ['A']).2 = none ∧ (s'.delType ['A']).1.byId 0 = none ∧
      ∃ t ∈ (s'.delType ['A']).1.types, ∃ g ∈ t.fields, g.target? = some (.type 0) := by
  obtain ⟨s', hrun⟩ : ∃ s', run (Schema.step noLang (fun _ => false) 0x4000) .empty nestedCalls =
    some s' := ⟨_, rfl⟩
  have hcounts : (run (Schema.step noLang (fun _ => false) 0x4000) .empty nestedCalls).map
      (fun s => (s.refcount (.type 0), s.total (.type 0))) = some (0, 1) := by decide
  have hdel : (run (Schema.step noLang (fun _ => false) 0x4000) .empty nestedCalls).map
      (fun s => ((s.delType ['A']).2.isNone, ((s.delType ['A']).1.byId 0).isNone,
        (s.delType ['A']).1.types.any fun t => t.fields.any fun g => g.target? = some (.type 0))) =
      some (true, true, true) := by decide
  rw [hrun] at hcounts hdel
  simp only [Option.map_some, Option.some.injEq, Prod.mk.injEq, Option.isNone_iff_eq_none,
    List.any_eq_true, decide_eq_true_eq] at hcounts hdel
  exact ⟨s', hrun, hcounts.1, hcounts.2, hdel⟩

def listedCalls : List Call :=
  [.setType ['A'] .nil .absent false,
    .setType ['B'] (.cons ['a'] (.str ['[', 'A', ']']) (.cons ['b'] (.str ['B', '?']) .nil)) .absent
      false,
    .setType ['W'] (.cons ['n'] (.one (.thing (.cons ['x'] (.str ['A']) .nil))) .nil) (.bool true)
      false,
    .modType ['B'] (.mod ['a'] (.str ['X']) false),
    .modType ['B'] (.del ['b']),
    .delType ['A']]

theorem calls_exact_listed :
    ∃ s', run (Schema.step noLang (fun _ => false) 0x4000) .empty listedCalls = some s' ∧
      s'.Exact ∧ ∀ t ∈ s'.types, ∀ g ∈ t.fields, ∀ i, g.target? = some (.type i) →
        (s'.byId i).isSome = true := by
  obtain ⟨s', hrun⟩ : ∃ s', run (Schema.step noLang (fun _ => false) 0x4000) .empty listedCalls =
    some s' := ⟨_, rfl⟩
  refine ⟨s', hrun, calls_exact rfl (fun _ => rfl) ?_ hrun⟩
  refine ⟨by decide, fun _ h₁ => ?_⟩
  cases h₁
  refine ⟨by decide, fun _ h₂ => ?_⟩
  cases h₂
  refine ⟨by decide, fun _ h₃ => ?_⟩
  cases h₃
  refine ⟨by decide, fun _ h₄ => ?_⟩
  cases h₄
  exact ⟨trivial, fun _ _ => ⟨trivial, fun _ _ => trivial⟩⟩

end Run

end ThingsDB.Types
