import ThingsDB.Instances.Walk
import ThingsDB.Util.Vec

/-!
# Adding and removing a field

`mod_type` with `add` and `del`, by a query and by a task of a change. The values of an
instance are in the order of the fields of its type, so every instance has to be changed
together with the type.
-/

namespace ThingsDB.Instances

open Util Mark List

/-- `ti_field_t`, as far as the position of its value is concerned. -/
structure Field where
  name : Raw
  idx : ℕ
  hasRelation : Bool
  deriving DecidableEq, Repr

structure Db extends Memory where
  fields : TypeId → List Field
  methods : TypeId → List Raw
  idname : TypeId → Option Raw
  wrapOnly : TypeId → Bool
  nextFreeId : ℕ

/-- A change of the type is made by a query, or is replayed. -/
inductive Via where
  | query
  | ctask
  deriving DecidableEq, Repr

/-- The changes of a type: `callback` tells the value which the closure gives for an
instance, which is none if there is no closure or its result is not used. -/
inductive Mod where
  | addField (name : Raw) (dval : Val) (callback : ℕ → Option Val)
  | addMethod (name : Raw)
  | addId (name : Raw)
  | del (name : Raw)

/-- `ti_field_remove` -/
def removeField (fields : List Field) (f : Field) : List Field :=
  (vecSwapRemove fields f.idx).modify f.idx fun swap => { swap with idx := f.idx }

namespace Db

variable (d : Db)

def byName (type : TypeId) (name : Raw) : Option Field :=
  (d.fields type).find? fun f => f.name = name

def known (type : TypeId) (name : Raw) : Bool :=
  d.idname type = some name ∨ (d.byName type name).isSome ∨ name ∈ d.methods type

def containers : Via → List (ℕ → Bool)
  | .query => [d.inVars, fun t => t ∈ d.things, fun t => t ∈ d.gc]
  | .ctask => [fun t => t ∈ d.things, fun t => t ∈ d.gc]

def onInstances (via : Via) (type : TypeId) (f : List Val → List Val) : ℕ → List Val :=
  (d.containers via).foldl
    (fun items found t =>
      if found t ∧ d.typeOf t = some type then f (items t) else items t) d.items

/-- The values after the callback of `modtype__add_cb`; when the task is replayed these
values follow as tasks of their own. -/
def setCallback (via : Via) (type : TypeId) (idx : ℕ) (callback : ℕ → Option Val)
    (items : ℕ → List Val) : ℕ → List Val :=
  match via with
  | .ctask => items
  | .query => fun t =>
    match callback t with
    | none => items t
    | some v => if d.typeOf t = some type then (items t).set idx v else items t

/-- `ti_val_gen_ids`, where the new ids are given out in the order of the things. -/
def genIds (v : Val) : Db :=
  let new := (d.newThings v).sort
  { d with
    toMemory := d.withIds (fun t => if t ∈ new then d.nextFreeId + new.idxOf t else d.id t)
      (d.things.union ⟨new, Finset.sort_nodup _ _⟩)
    nextFreeId := d.nextFreeId + new.length }

/-- Before the instances are changed by a query, the things of an initial value get an id. There is
no such value for a type which is wrap-only, and the one of a task is read with its ids. -/
def giveIds (via : Via) (type : TypeId) : Mod → Db
  | .addField _ dval _ => if via = .query ∧ d.wrapOnly type = false then d.genIds dval else d
  | _ => d

/-- `type__add` and `type__del`, `ctask__mod_type_add` and `ctask__mod_type_del`. -/
def modType (via : Via) (type : TypeId) : Mod → Option Db
  | .addField name dval callback =>
    if d.known type name then none
    else
      let idx := (d.fields type).length
      let e := d.giveIds via type (.addField name dval callback)
      some { e with
        fields := Function.update d.fields type (d.fields type ++ [⟨name, idx, false⟩])
        items :=
          if d.wrapOnly type then d.items
          else d.setCallback via type idx callback (e.onInstances via type (· ++ [dval])) }
  | .addMethod name =>
    if d.known type name then none
    else some { d with methods := Function.update d.methods type (d.methods type ++ [name]) }
  | .addId name =>
    if d.known type name ∨ (d.idname type).isSome then none
    else some { d with idname := Function.update d.idname type (some name) }
  | .del name =>
    if d.idname type = some name then
      some { d with idname := Function.update d.idname type none }
    else
      match d.byName type name with
      | some f =>
        if f.hasRelation then none
        else some { d with
          items := d.onInstances via type fun vals => vecSwapRemove vals f.idx
          fields := Function.update d.fields type (removeField (d.fields type) f) }
      | none =>
        if name ∈ d.methods type then
          some { d with methods := Function.update d.methods type ((d.methods type).erase name) }
        else none

def Touches (type : TypeId) : Mod → Prop
  | .addField _ _ _ => True
  | .del name => d.idname type ≠ some name ∧ d.byName type name ≠ none
  | _ => False

/-- An instance is in one of the containers which are looked at. -/
def Found (t : ℕ) : Via → Prop
  | .query => d.Seen (.thing t) ∨ t ∈ d.things ∨ t ∈ d.gc
  | .ctask => t ∈ d.things ∨ t ∈ d.gc

/-- An instance is changed together with its type. The instances of a type which is wrap-only do
not get a value for a new field. -/
def Reached (via : Via) (type : TypeId) (t : ℕ) : Mod → Prop
  | .addField name dval callback =>
    d.wrapOnly type = false ∧ (d.giveIds via type (.addField name dval callback)).Found t via
  | _ => d.Found t via

end Db

def Mod.newVal (via : Via) (t : ℕ) : Mod → Option Val
  | .addField _ dval callback =>
    match via with
    | .query => some ((callback t).getD dval)
    | .ctask => some dval
  | _ => none

/-- An instance has a value for every field: the one the field had, or a new one. -/
structure Kept (d d' : Db) (via : Via) (type : TypeId) (mod : Mod) (t : ℕ) : Prop where
  length : (d'.items t).length = (d'.fields type).length
  old : ∀ f ∈ d'.fields type, ∀ g ∈ d.fields type, g.name = f.name →
    (d'.items t)[f.idx]? = (d.items t)[g.idx]?
  new : ∀ f ∈ d'.fields type, (∀ g ∈ d.fields type, g.name ≠ f.name) →
    ∃ v, mod.newVal via t = some v ∧ (d'.items t)[f.idx]? = some v

/-- What holds between the changes of types. -/
structure Wf (d : Db) : Prop where
  idx : ∀ (type : TypeId) (i : ℕ) (f : Field), (d.fields type)[i]? = some f → f.idx = i
  names : ∀ type, ((d.fields type).map Field.name).Nodup
  memory : d.toMemory.Wf
  nextFreeId : 0 < d.nextFreeId
  aligned : ∀ t type, d.Live t → d.typeOf t = some type →
    (d.items t).length = (d.fields type).length

variable {d d' : Db} {via : Via} {type : TypeId} {mod : Mod} {t : ℕ} {name : Raw}

/-- A thing is in one container at most. -/
structure Apart (m : Memory) : Prop where
  things_id : ∀ t ∈ m.things, m.id t ≠ 0
  gc_id : ∀ t ∈ m.gc, m.id t ≠ 0 ∧ t ∉ m.things
  nodes : ∀ n, m.Seen n → n ∈ m.nodes

theorem Wf.apart (hwf : Wf d) : Apart d.toMemory where
  things_id := hwf.memory.things_id
  gc_id := hwf.memory.gc_id
  nodes n hn := hwf.memory.nodes n (Memory.Seen.liveNode (m := d.toMemory) hn)

theorem apart_genIds (hwf : Wf d) (v : Val) : Apart (d.genIds v).toMemory := by
  have hpos := hwf.nextFreeId
  have hthings : ∀ t, t ∈ (d.genIds v).things ↔ t ∈ d.things ∨ t ∈ d.newThings v := fun t =>
    Imap.mem_union.trans (or_congr_right (Finset.mem_sort _))
  refine ⟨fun t ht => ?_, fun t ht => ?_, fun n hn => hwf.memory.nodes n hn.liveNode⟩
  all_goals simp only [Db.genIds, Memory.withIds, Finset.mem_sort] at ht ⊢
  · split_ifs with hnew
    · omega
    · exact hwf.memory.things_id t (((hthings t).mp ht).resolve_right hnew)
  · obtain ⟨hid, hnot⟩ := hwf.memory.gc_id t ht
    have hnew : t ∉ d.newThings v := fun h => hid (id_of_mem_newThings h)
    exact ⟨by rwa [if_neg hnew], fun h => ((hthings t).mp h).elim hnot hnew⟩

theorem giveIds_spec (hwf : Wf d) (via : Via) (type : TypeId) (mod : Mod) :
    Apart (d.giveIds via type mod).toMemory ∧ (d.giveIds via type mod).items = d.items ∧
      (d.giveIds via type mod).typeOf = d.typeOf := by
  unfold Db.giveIds
  split
  · split_ifs
    · exact ⟨apart_genIds hwf _, rfl, rfl⟩
    · exact ⟨hwf.apart, rfl, rfl⟩
  · exact ⟨hwf.apart, rfl, rfl⟩

theorem onInstances_eq (via : Via) (hwf : Apart d.toMemory) (ht : d.typeOf t = some type)
    (f : List Val → List Val) :
    (d.Found t via → d.onInstances via type f t = f (d.items t)) ∧
      (¬d.Found t via → d.onInstances via type f t = d.items t) := by
  have hseen : d.Seen (.thing t) → d.id t = 0 := by
    intro h
    simpa [Memory.isOpen] using isOpen_of_seen h
  have hthings := hwf.things_id t
  have hgc := hwf.gc_id t
  have hvars : d.inVars t = true ↔ d.Seen (.thing t) := inVars_iff hwf.nodes
  cases via with
  | query =>
    simp only [Db.onInstances, Db.containers, foldl_cons, foldl_nil, Db.Found]
    by_cases h₁ : d.Seen (.thing t)
    · have hid := hseen h₁
      have h₂ : t ∉ d.things := fun h => hthings h hid
      have h₃ : t ∉ d.gc := fun h => (hgc h).1 hid
      simp [ht, hvars, h₁, h₂, h₃]
    · by_cases h₂ : t ∈ d.things
      · have h₃ : t ∉ d.gc := fun h => (hgc h).2 h₂
        simp [ht, hvars, h₁, h₂, h₃]
      · by_cases h₃ : t ∈ d.gc <;> simp [ht, hvars, h₁, h₂, h₃]
  | ctask =>
    simp only [Db.onInstances, Db.containers, foldl_cons, foldl_nil, Db.Found]
    by_cases h₂ : t ∈ d.things
    · have h₃ : t ∉ d.gc := fun h => (hgc h).2 h₂
      simp [ht, h₂, h₃]
    · by_cases h₃ : t ∈ d.gc <;> simp [ht, h₂, h₃]

theorem length_setCallback (via : Via) (idx : ℕ) (callback : ℕ → Option Val)
    (items : ℕ → List Val) :
    (d.setCallback via type idx callback items t).length = (items t).length := by
  cases via with
  | ctask => rfl
  | query =>
    cases hcb : callback t with
    | none => simp [Db.setCallback, hcb]
    | some v =>
      simp only [Db.setCallback, hcb]
      split_ifs <;> simp

variable {f g : Field} {dval : Val}

/-- The default value is replaced by the value of the callback. -/
theorem setCallback_append (via : Via) (name : Raw) {vals : List Val} (callback : ℕ → Option Val)
    {items : ℕ → List Val} (ht : d.typeOf t = some type) (hitems : items t = vals ++ [dval]) :
    ∃ v, Mod.newVal via t (.addField name dval callback) = some v ∧
      d.setCallback via type vals.length callback items t = vals ++ [v] := by
  cases via with
  | ctask => exact ⟨dval, rfl, hitems⟩
  | query =>
    refine ⟨(callback t).getD dval, rfl, ?_⟩
    cases hcb : callback t with
    | none => simp [Db.setCallback, hcb, hitems]
    | some v => simp [Db.setCallback, hcb, hitems, ht]

theorem Wf.eq_of_name (hwf : Wf d) (hf : f ∈ d.fields type) (hg : g ∈ d.fields type)
    (h : f.name = g.name) : f = g :=
  inj_on_of_nodup_map (hwf.names type) hf hg h

theorem Wf.idx_lt (hwf : Wf d) (hf : f ∈ d.fields type) :
    f.idx < (d.fields type).length ∧ (d.fields type)[f.idx]? = some f := by
  obtain ⟨i, hi⟩ := mem_iff_getElem?.mp hf
  have hidx := hwf.idx type i f hi
  rw [hidx]
  exact ⟨(List.getElem?_eq_some_iff.mp hi).1, hi⟩

theorem kept_of_eq (hwf : Wf d) (hlive : d.Live t) (ht : d.typeOf t = some type)
    (hitems : d'.items t = d.items t) (hfields : d'.fields type = d.fields type) :
    Kept d d' via type mod t where
  length := by rw [hitems, hfields, hwf.aligned t type hlive ht]
  old := by
    intro f hf g hg hname
    rw [hfields] at hf
    rw [hitems, hwf.eq_of_name hg hf hname]
  new := by
    intro f hf hnew
    rw [hfields] at hf
    exact absurd rfl (hnew f hf)

theorem known_of_mem (hf : f ∈ d.fields type) : d.known type f.name := by
  have hsome : (d.byName type f.name).isSome := by
    rw [Db.byName, find?_isSome]
    exact ⟨f, hf, by simp⟩
  simp [Db.known, hsome]

theorem kept_addField_iff {callback : ℕ → Option Val} (hwf : Wf d)
    (hlive : d.Live t) (ht : d.typeOf t = some type)
    (h : d.modType via type (.addField name dval callback) = some d') :
    Kept d d' via type (.addField name dval callback) t ↔
      d.Reached via type t (.addField name dval callback) := by
  have hlen := hwf.aligned t type hlive ht
  obtain ⟨hknown, hd'⟩ := Option.ite_none_left_eq_some.mp h
  have hd' := Option.some.inj hd'
  have hfields : d'.fields type = d.fields type ++ [⟨name, (d.fields type).length, false⟩] := by
    rw [← hd']
    simp
  obtain ⟨hapart, hsame, htype⟩ := giveIds_spec hwf via type (.addField name dval callback)
  obtain ⟨hpos, hneg⟩ := onInstances_eq via hapart (by rw [htype, ht]) (· ++ [dval])
  rw [hsame] at hpos hneg
  have hitems : d'.items t = if d.wrapOnly type then d.items t else
      d.setCallback via type (d.fields type).length callback
        ((d.giveIds via type (.addField name dval callback)).onInstances via type
          (· ++ [dval])) t := by
    rw [← hd']
    simp only
    split_ifs <;> rfl
  constructor
  · intro hkept
    have hlength := hkept.length
    rw [hitems, hfields, length_append, ← hlen, length_singleton] at hlength
    split_ifs at hlength with hwrap
    · omega
    · refine ⟨by simpa using hwrap, ?_⟩
      by_contra hnot
      rw [length_setCallback, hneg hnot] at hlength
      omega
  · rintro ⟨hwrap, hfound⟩
    rw [if_neg (by simp [hwrap])] at hitems
    obtain ⟨v, hv, happ⟩ := setCallback_append via name callback ht (hpos hfound)
    rw [hlen, ← hitems] at happ
    constructor
    case length => simp [happ, hfields, hlen]
    case old =>
      intro f hf g hg hname
      have hfg : f = g := by
        rw [hfields, mem_append, mem_singleton] at hf
        rcases hf with hf | rfl
        · exact hwf.eq_of_name hf hg hname.symm
        · have hmem := known_of_mem hg
          rw [hname] at hmem
          exact absurd hmem hknown
      have hlt := (hwf.idx_lt hg).1
      rw [happ, hfg, getElem?_append_left (by omega)]
    case new =>
      intro f hf hnew
      rw [hfields, mem_append, mem_singleton] at hf
      rcases hf with hf | rfl
      · exact absurd rfl (hnew f hf)
      · exact ⟨v, hv, by simp [happ, ← hlen]⟩

/-- The fields after one is removed: the last one has its place. -/
theorem getElem?_removeField {fields : List Field} {j : ℕ}
    (hidx : ∀ (i : ℕ) (g : Field), fields[i]? = some g → g.idx = i) (hf : f.idx < fields.length)
    (hg : (removeField fields f)[j]? = some g) :
    j + 1 < fields.length ∧ g.idx = j ∧ ∃ g' : Field, g'.name = g.name ∧
      (if j = f.idx then fields[fields.length - 1]? else fields[j]?) = some g' := by
  have hj : j + 1 < fields.length := by
    have hlt := (List.getElem?_eq_some_iff.mp hg).1
    simp only [removeField, length_modify, length_vecSwapRemove] at hlt
    omega
  rw [removeField, getElem?_modify, getElem?_vecSwapRemove fields f.idx hf hj] at hg
  obtain ⟨g', hg', rfl⟩ := Option.map_eq_some_iff.mp hg
  refine ⟨hj, ?_, g', ?_, hg'⟩
  · split_ifs with hji
    · exact hji.symm ▸ rfl
    · rw [if_neg (fun h => hji h.symm)] at hg'
      exact hidx j g' hg'
  · split_ifs <;> rfl

theorem kept_delField_iff (hwf : Wf d) (hlive : d.Live t)
    (ht : d.typeOf t = some type) (hf : f ∈ d.fields type)
    (hitems : d'.items = d.onInstances via type fun vals => vecSwapRemove vals f.idx)
    (hfields : d'.fields type = removeField (d.fields type) f) :
    Kept d d' via type (.del name) t ↔ d.Found t via := by
  have hlen := hwf.aligned t type hlive ht
  have hlt := (hwf.idx_lt hf).1
  have hlenFields : (d'.fields type).length = (d.fields type).length - 1 := by
    simp [hfields, removeField]
  obtain ⟨hpos, hneg⟩ := onInstances_eq via hwf.apart ht fun vals => vecSwapRemove vals f.idx
  constructor
  · intro hkept
    by_contra hnot
    have hlength := hkept.length
    rw [hitems, hneg hnot, hlenFields, hlen] at hlength
    omega
  · intro hfound
    have hvals : d'.items t = vecSwapRemove (d.items t) f.idx := by rw [hitems, hpos hfound]
    constructor
    case length => rw [hvals, length_vecSwapRemove, hlenFields, hlen]
    case old =>
      intro g hg k hk hname
      rw [hfields] at hg
      obtain ⟨j, hj⟩ := mem_iff_getElem?.mp hg
      obtain ⟨hjlt, hidx, g', hname', hg'⟩ := getElem?_removeField (hwf.idx type) hlt hj
      rw [hvals, hidx, getElem?_vecSwapRemove _ _ (by omega) (by omega), hlen]
      split_ifs at hg' ⊢
      all_goals
        have hkg : k = g' :=
          hwf.eq_of_name hk (mem_of_getElem? hg') (hname.trans hname'.symm)
        rw [hkg, hwf.idx type _ g' hg']
    case new =>
      intro g hg hnew
      rw [hfields] at hg
      obtain ⟨j, hj⟩ := mem_iff_getElem?.mp hg
      obtain ⟨-, -, g', hname', hg'⟩ := getElem?_removeField (hwf.idx type) hlt hj
      split_ifs at hg'
      all_goals exact absurd hname' (hnew g' (mem_of_getElem? hg'))

theorem kept_del_iff (hwf : Wf d) (hlive : d.Live t) (ht : d.typeOf t = some type)
    (h : d.modType via type (.del name) = some d') :
    Kept d d' via type (.del name) t ↔ (d.Touches type (.del name) → d.Found t via) := by
  rw [Db.modType] at h
  by_cases hid : d.idname type = some name
  · rw [if_pos hid] at h
    have hd' := Option.some.inj h
    refine iff_of_true ?_ fun htouch => absurd hid htouch.1
    exact kept_of_eq hwf hlive ht (by rw [← hd']) (by rw [← hd'])
  · rw [if_neg hid] at h
    cases hf : d.byName type name with
    | none =>
      simp only [hf] at h
      have hd' := Option.some.inj (Option.ite_none_right_eq_some.mp h).2
      refine iff_of_true ?_ fun htouch => absurd hf htouch.2
      exact kept_of_eq hwf hlive ht (by rw [← hd']) (by rw [← hd'])
    | some f =>
      simp only [hf] at h
      have hd' := Option.some.inj (Option.ite_none_left_eq_some.mp h).2
      have htouch : d.Touches type (.del name) := ⟨hid, by simp [hf]⟩
      rw [kept_delField_iff (f := f) hwf hlive ht (mem_of_find?_eq_some hf) (by rw [← hd'])
        (by rw [← hd']; simp)]
      exact ⟨fun hfound _ => hfound, fun himp => himp htouch⟩

/-- Every live instance is aligned with its type after a change of the type, if and only if
each of them is in a container which is looked at, and no field is added to a wrap-only type which
has an instance. -/
theorem modType_kept_iff (hwf : Wf d) (h : d.modType via type mod = some d') :
    (∀ t, d.Live t → d.typeOf t = some type → Kept d d' via type mod t) ↔
      (d.Touches type mod →
        ∀ t, d.Live t → d.typeOf t = some type → d.Reached via type t mod) := by
  have hone : ∀ t, d.Live t → d.typeOf t = some type →
      (Kept d d' via type mod t ↔ (d.Touches type mod → d.Reached via type t mod)) := by
    intro t hlive ht
    cases mod with
    | addField name dval callback =>
      rw [kept_addField_iff hwf hlive ht h]
      exact ⟨fun hfound _ => hfound, fun himp => himp trivial⟩
    | del name => exact kept_del_iff hwf hlive ht h
    | addMethod name =>
      have hd' := Option.some.inj (Option.ite_none_left_eq_some.mp h).2
      exact iff_of_true (kept_of_eq hwf hlive ht (by rw [← hd']) (by rw [← hd'])) False.elim
    | addId name =>
      have hd' := Option.some.inj (Option.ite_none_left_eq_some.mp h).2
      exact iff_of_true (kept_of_eq hwf hlive ht (by rw [← hd']) (by rw [← hd'])) False.elim
  constructor
  · intro hkept htouch t hlive ht
    exact (hone t hlive ht).mp (hkept t hlive ht) htouch
  · intro hfound t hlive ht
    exact (hone t hlive ht).mpr fun htouch => hfound htouch t hlive ht

/-- One thing without an id, an instance of a type with two fields, which is a variable, the
argument of a future or held in another way. -/
def smallDb (vars : List Val) (futures : List (List Val)) (held : List Val) : Db where
  typeOf := fun t => if t = 1 then some 0 else none
  id := fun _ => 0
  items := fun _ => [.int 1, .int 2]
  futureVal := fun _ => none
  nodes := {.thing 1}
  things := .empty
  gc := []
  vars := vars
  futures := futures
  vtasks := []
  held := held
  fields := fun _ => [⟨[120], 0, false⟩, ⟨[121], 1, false⟩]
  methods := fun _ => []
  idname := fun _ => none
  wrapOnly := fun _ => false
  nextFreeId := 1

theorem wf_smallDb {vars : List Val} {futures : List (List Val)} {held : List Val}
    (hroots : ∀ n ∈ (smallDb vars futures held).holders, n = .thing 1) :
    Wf (smallDb vars futures held) where
  idx := by
    intro type i f hf
    match i with
    | 0 => exact Option.some.inj hf ▸ rfl
    | 1 => exact Option.some.inj hf ▸ rfl
    | i + 2 => exact absurd hf (by simp [smallDb])
  names := fun _ => by
    show ([[120], [121]] : List Raw).Nodup
    decide
  memory := by
    refine ⟨fun t ht => absurd ht (Imap.not_mem_empty t), fun t ht => absurd ht not_mem_nil,
      nodup_nil, ?_⟩
    rintro n ⟨r, hr, hpath⟩
    cases hpath with
    | refl => exact Finset.mem_singleton.mpr (hroots n hr)
    | @tail b _ _ hstep =>
      cases b with
      | thing t => exact absurd hstep not_mem_nil
      | future i => exact absurd hstep not_mem_nil
  nextFreeId := Nat.one_pos
  aligned := fun _ _ _ _ => rfl

/-- An instance which is only held by the expression is missed by a query, and one which is
the argument of a future is missed when the task is replayed: the values stay where they
are while the field is gone. -/
theorem modType_not_kept :
    (Wf (smallDb [] [] [.thing 1]) ∧ (smallDb [] [] [.thing 1]).Live 1 ∧
      ∃ d', (smallDb [] [] [.thing 1]).modType .query 0 (.del [120]) = some d' ∧
        ¬Kept (smallDb [] [] [.thing 1]) d' .query 0 (.del [120]) 1) ∧
      Wf (smallDb [] [[.thing 1]] []) ∧ (smallDb [] [[.thing 1]] []).Live 1 ∧
        ∃ d', (smallDb [] [[.thing 1]] []).modType .ctask 0 (.del [120]) = some d' ∧
          ¬Kept (smallDb [] [[.thing 1]] []) d' .ctask 0 (.del [120]) 1 := by
  refine ⟨⟨wf_smallDb (by decide), ⟨.thing 1, by decide, Relation.ReflTransGen.refl⟩, _, rfl, ?_⟩,
    wf_smallDb (by decide), ⟨.thing 1, by decide, Relation.ReflTransGen.refl⟩, _, rfl, ?_⟩
  · intro hkept
    exact absurd hkept.length (by decide)
  · intro hkept
    exact absurd hkept.length (by decide)

theorem modType_kept_var :
    ∃ d', (smallDb [.thing 1] [] []).modType .query 0 (.del [120]) = some d' ∧
      Kept (smallDb [.thing 1] [] []) d' .query 0 (.del [120]) 1 := by
  have hwf : Wf (smallDb [.thing 1] [] []) := wf_smallDb (by decide)
  refine ⟨_, rfl, (modType_kept_iff hwf rfl).mpr ?_ 1
    ⟨.thing 1, by decide, Relation.ReflTransGen.refl⟩ rfl⟩
  rintro - t - ht
  have heq : t = 1 := by
    by_contra hne
    exact absurd ht (by simp [smallDb, hne])
  subst heq
  exact Or.inl ⟨.thing 1, by decide, Relation.ReflTransGen.refl⟩

end ThingsDB.Instances
