import ThingsDB.Instances.Walk
import ThingsDB.Lib.Transition

/-!
# The instances of a type

`type_all` collects the instances of a type, and keeps them in `t_cache` if the type has an
index. From then on the instances which are created, converted and destroyed are added to the
cache and dropped from it.
-/

namespace ThingsDB.Instances

open Util Mark Transition Function List

/-- The memory with the caches and the flags of the types. -/
structure Cached extends Memory where
  cache : TypeId → Option (Finset ℕ)
  index : TypeId → Bool
  wrapOnly : TypeId → Bool

/-- The operations which are of interest for the cache. Everything else, the garbage collection
included, is a `move` to another memory, after which the things in `dead` are destroyed. -/
inductive Op where
  | create (t id : ℕ) (type : TypeId)
  | toType (t : ℕ) (type : TypeId) (vals : List Val)
  | toThing (t : ℕ)
  | move (m : Memory) (dead : List ℕ)
  | typeAll (type : TypeId)
  | setIndex (type : TypeId) (index : Bool)
  | setWrapOnly (type : TypeId) (wrapOnly : Bool)

namespace Cached

variable (s : Cached)

def cacheDrop (t : ℕ) : Cached :=
  match s.typeOf t with
  | none => s
  | some type =>
    { s with cache := Function.update s.cache type ((s.cache type).map fun c => c.erase t) }

/-- `ti_thing_t_vache_add`, which clears the cache if the thing is there already. -/
def cacheAdd (t : ℕ) : Cached :=
  match s.typeOf t with
  | none => s
  | some type =>
    { s with
      cache := Function.update s.cache type
        ((s.cache type).bind fun c => if t ∈ c then none else some (insert t c)) }

/-- `ti_thing_destroy`, where the thing is out of the collection. -/
def destroy (t : ℕ) : Cached :=
  { s.cacheDrop t with nodes := s.nodes.erase (.thing t) }

/-- `type__collect_cb`, which fails for a thing which was found before. -/
def collectCb (type : TypeId) (c : Finset ℕ) (t : ℕ) : Option (Finset ℕ) :=
  if s.typeOf t = some type then if t ∈ c then none else some (insert t c) else some c

/-- The things which are found by `ti_query_vars_walk`. -/
def inVarsThings : Finset ℕ :=
  s.nodes.biUnion fun
    | .thing t => if s.inVars t then {t} else ∅
    | .future _ => ∅

def collectThings (type : TypeId) : Option (Finset ℕ) :=
  match s.cache type with
  | some c => some c
  | none =>
    (s.things.things ++ s.gc).foldlM (s.collectCb type)
      (s.inVarsThings.filter fun t => s.typeOf t = some type)

def typeAll (type : TypeId) : Cached :=
  if s.wrapOnly type then s
  else
    match s.collectThings type with
    | none => s
    | some c =>
      if s.index type ∧ s.cache type = none then
        { s with cache := Function.update s.cache type (some c) }
      else s

def created (t id : ℕ) (type : TypeId) : Memory :=
  { s.toMemory with
    typeOf := Function.update s.typeOf t (some type)
    id := Function.update s.id t id
    items := Function.update s.items t []
    nodes := insert (.thing t) s.nodes
    things := if id = 0 then s.things else s.things.add t
    held := .thing t :: s.held }

def converted (t : ℕ) (type : TypeId) (vals : List Val) : Memory :=
  { s.toMemory with
    typeOf := Function.update s.typeOf t (some type)
    items := Function.update s.items t vals }

def moved (m : Memory) : Memory := { m with typeOf := s.typeOf, nodes := s.nodes }

def exec : Op → Cached
  -- `ti_thing_t_create`
  | .create t id type => { s with toMemory := s.created t id type }.cacheAdd t
  -- `ti_type_convert`
  | .toType t type vals => { s with toMemory := s.converted t type vals }.cacheAdd t
  -- `ti_thing_t_to_object`
  | .toThing t => { s.cacheDrop t with typeOf := Function.update s.typeOf t none }
  | .move m dead => dead.foldl destroy { s with toMemory := s.moved m }
  | .typeAll type => s.typeAll type
  -- `ti_type_set_index`
  | .setIndex type index =>
    { s with
      index := Function.update s.index type index
      cache := if index then s.cache else Function.update s.cache type none }
  -- `ti_type_set_wrap_only_mode`
  | .setWrapOnly type wrapOnly =>
    { s with
      wrapOnly := Function.update s.wrapOnly type wrapOnly
      cache := if wrapOnly then Function.update s.cache type none else s.cache }

def step (s : Cached) (op : Op) : Option Cached := some (s.exec op)

/-- An instance is in one of the containers which are looked at. -/
def Found (t : ℕ) : Prop := s.Seen (.thing t) ∨ t ∈ s.things ∨ t ∈ s.gc

/-- What a statement can do: a new thing takes unused memory, a conversion does not change what
is alive, a thing which is out of reach stays so, and only such a thing is destroyed. -/
def Allows : Op → Prop
  | .create t _ _ => .thing t ∉ s.nodes
  | .toType t type vals =>
    s.Live t ∧ s.typeOf t = none ∧
      ∀ n, (s.converted t type vals).LiveNode n ↔ s.LiveNode n
  | .move m dead =>
    (s.moved m).Wf ∧ (∀ t, (s.moved m).Live t → s.Live t) ∧ ∀ t ∈ dead, ¬(s.moved m).Live t
  | _ => True

/-- The instances are found when the cache is built, and the instances which die are destroyed
at once. -/
def Meets : Op → Prop
  | .typeAll type =>
    s.wrapOnly type = false → s.index type = true → s.cache type = none →
      ∀ t, s.Live t → s.typeOf t = some type → s.Found t
  | .move m dead =>
    ∀ type c, s.cache type = some c → ∀ t ∈ c, (s.moved m).Live t ∨ t ∈ dead
  | _ => True

def Exact : Prop :=
  ∀ type c, s.cache type = some c → ∀ t, t ∈ c ↔ s.Live t ∧ s.typeOf t = some type

end Cached

namespace Memory

variable {m : Memory} {n k : Node} {t : ℕ}

theorem LiveNode.of_holder (h : n ∈ m.holders) : m.LiveNode n := ⟨n, h, .refl⟩

theorem LiveNode.tail (h : m.LiveNode n) (hk : k ∈ refsVec (m.content n)) : m.LiveNode k := by
  obtain ⟨r, hr, hpath⟩ := h
  exact ⟨r, hr, hpath.tail hk⟩

/-- What the holders have, and what a live node passes on, every live node has. -/
theorem LiveNode.induction {P : Node → Prop} (hroot : ∀ r ∈ m.holders, P r)
    (hstep : ∀ n k, m.LiveNode n → P n → k ∈ refsVec (m.content n) → P k) (h : m.LiveNode n) :
    P n := by
  obtain ⟨r, hr, hpath⟩ := h
  induction hpath with
  | refl => exact hroot r hr
  | tail hpath hk ih => exact hstep _ _ ⟨r, hr, hpath⟩ ih hk

theorem live_of_mem_things (h : t ∈ m.things) : m.Live t :=
  LiveNode.of_holder (n := .thing t) (by simp [holders, h, ← Imap.mem_def])

theorem live_of_mem_gc (h : t ∈ m.gc) : m.Live t :=
  LiveNode.of_holder (n := .thing t) (by simp [holders, h])

end Memory

variable {id : ℕ} {m : Memory} {n : Node} {held vars : List Val}

namespace Cached

variable {s : Cached} {t : ℕ} {type : TypeId}

section Hooks

theorem toMemory_cacheAdd (s : Cached) (t : ℕ) : (s.cacheAdd t).toMemory = s.toMemory := by
  unfold cacheAdd
  split <;> rfl

theorem toMemory_cacheDrop (s : Cached) (t : ℕ) : (s.cacheDrop t).toMemory = s.toMemory := by
  unfold cacheDrop
  split <;> rfl

theorem cache_cacheAdd (s : Cached) (t : ℕ) (type : TypeId) :
    (s.cacheAdd t).cache type =
      if s.typeOf t = some type then
        (s.cache type).bind fun c => if t ∈ c then none else some (insert t c)
      else s.cache type := by
  unfold cacheAdd
  cases htype : s.typeOf t with
  | none => simp
  | some type' =>
    by_cases heq : type' = type
    · subst heq
      simp
    · simp [heq, update_of_ne (Ne.symm heq)]

theorem cache_cacheDrop (s : Cached) (t : ℕ) (type : TypeId) :
    (s.cacheDrop t).cache type =
      if s.typeOf t = some type then (s.cache type).map fun c => c.erase t else s.cache type := by
  unfold cacheDrop
  cases htype : s.typeOf t with
  | none => simp
  | some type' =>
    by_cases heq : type' = type
    · subst heq
      simp
    · simp [heq, update_of_ne (Ne.symm heq)]

theorem Exact.cacheAdd (h : s.Exact) (hnot : ¬(s.Live t ∧ s.typeOf t ≠ none))
    (htype : m.typeOf = update s.typeOf t (some type)) (hlive : ∀ u, m.Live u ↔ s.Live u ∨ u = t) :
    (Cached.cacheAdd { s with toMemory := m } t).Exact := by
  intro type' c hc u
  rw [cache_cacheAdd] at hc
  rw [toMemory_cacheAdd]
  show u ∈ c ↔ m.Live u ∧ m.typeOf u = some type'
  have hmem : ∀ {c}, s.cache type' = some c → t ∉ c := fun hc ht =>
    hnot ⟨((h type' _ hc t).mp ht).1, by simp [((h type' _ hc t).mp ht).2]⟩
  rw [hlive, htype]
  simp only [htype, update_self] at hc
  by_cases htt : type = type'
  · subst htt
    rw [if_pos rfl] at hc
    obtain ⟨c₀, hc₀, hc⟩ := Option.bind_eq_some_iff.mp hc
    rw [if_neg (hmem hc₀)] at hc
    rw [← Option.some.inj hc, Finset.mem_insert, h type c₀ hc₀]
    by_cases hu : u = t
    · simp [hu]
    · simp [hu]
  · rw [if_neg (by simpa using htt)] at hc
    rw [h type' c hc]
    by_cases hu : u = t
    · have := mt (h type' c hc t).mpr (hmem hc)
      subst hu
      simp [htt, this]
    · simp [hu]

end Hooks

section Destroy

theorem destroyed (s : Cached) (dead : List ℕ) :
    (dead.foldl destroy s).toMemory =
      { s.toMemory with nodes := (dead.foldl destroy s).nodes } ∧
    (∀ n, n ∈ (dead.foldl destroy s).nodes ↔ n ∈ s.nodes ∧ ∀ t ∈ dead, n ≠ .thing t) ∧
    ∀ type, (dead.foldl destroy s).cache type =
      (s.cache type).map fun c => c.filter fun t => ¬(t ∈ dead ∧ s.typeOf t = some type) := by
  induction dead generalizing s with
  | nil => simp
  | cons t dead ih =>
    obtain ⟨hmemory, hnodes, hcache⟩ := ih (s.destroy t)
    have hdestroy : (s.destroy t).toMemory =
        { s.toMemory with nodes := s.nodes.erase (.thing t) } := by
      simp [destroy, toMemory_cacheDrop]
    rw [foldl_cons]
    refine ⟨?_, fun n => ?_, fun type => ?_⟩
    · rw [hmemory, hdestroy]
    · rw [hnodes, hdestroy]
      simp only [Finset.mem_erase, forall_mem_cons]
      tauto
    · have hdrop : (s.destroy t).cache type = (s.cacheDrop t).cache type := rfl
      rw [hcache, hdrop, cache_cacheDrop, hdestroy]
      cases hc : s.cache type with
      | none => simp
      | some c =>
        split_ifs with htype
        · simp only [Option.map_some, Option.some.injEq]
          ext u
          simp only [Finset.mem_filter, Finset.mem_erase, mem_cons]
          by_cases hu : u = t
          · subst hu
            simp [htype]
          · simp [hu]
        · simp only [Option.map_some, Option.some.injEq]
          ext u
          simp only [Finset.mem_filter, mem_cons]
          by_cases hu : u = t
          · subst hu
            simp [htype]
          · simp [hu]

end Destroy

section Create

theorem mem_holders_created {r : Node} :
    r ∈ (s.created t id type).holders ↔ r ∈ s.holders ∨ r = .thing t := by
  have hthings : r ∈ (s.created t id type).things.things.map Node.thing →
      r ∈ s.things.things.map Node.thing ∨ r = .thing t := by
    intro hr
    obtain ⟨u, hu, rfl⟩ := mem_map.mp hr
    simp only [created, ← Imap.mem_def] at hu
    split_ifs at hu
    · exact .inl (mem_map_of_mem hu)
    · exact (Imap.mem_add.mp hu).imp mem_map_of_mem (congrArg Node.thing)
  have hthings' : r ∈ s.things.things.map Node.thing →
      r ∈ (s.created t id type).things.things.map Node.thing := by
    intro hr
    obtain ⟨u, hu, rfl⟩ := mem_map.mp hr
    refine mem_map_of_mem ?_
    simp only [created, ← Imap.mem_def]
    split_ifs
    · exact hu
    · exact Imap.mem_add.mpr (.inl hu)
  have hheld : r ∈ refsVec (s.created t id type).held ↔ r = .thing t ∨ r ∈ refsVec s.held := by
    simp [created, refsVec, refs]
  have hrest : (s.created t id type).gc = s.gc ∧ (s.created t id type).vars = s.vars ∧
      (s.created t id type).futures = s.futures ∧ (s.created t id type).vtasks = s.vtasks :=
    ⟨rfl, rfl, rfl, rfl⟩
  simp only [Memory.holders, mem_append, hheld, hrest]
  tauto

theorem liveNode_created (id : ℕ) (hnew : ¬s.LiveNode (.thing t)) :
    (s.created t id type).LiveNode n ↔ s.LiveNode n ∨ n = .thing t := by
  have hcontent : ∀ k, k ≠ .thing t → (s.created t id type).content k = s.content k := by
    intro k hk
    cases k with
    | thing u => exact update_of_ne (fun h => hk (congrArg Node.thing h)) _ _
    | future i => rfl
  have hnil : (s.created t id type).content (.thing t) = [] := update_self _ _ _
  constructor
  · intro hlive
    refine Memory.LiveNode.induction (P := fun n => s.LiveNode n ∨ n = .thing t)
      (fun r hr => ?_) (fun k l _ hk hl => ?_) hlive
    · exact (mem_holders_created.mp hr).imp_left .of_holder
    · by_cases hkt : k = .thing t
      · rw [hkt, hnil] at hl
        exact absurd hl not_mem_nil
      · rw [hcontent k hkt] at hl
        exact .inl ((hk.resolve_right hkt).tail hl)
  · rintro (hlive | rfl)
    · refine Memory.LiveNode.induction (fun r hr => ?_) (fun k l hk hk' hl => ?_) hlive
      · exact .of_holder (mem_holders_created.mpr (.inl hr))
      · have hkt : k ≠ .thing t := fun h => hnew (h ▸ hk)
        exact hk'.tail (by rwa [hcontent k hkt])
    · exact .of_holder (mem_holders_created.mpr (.inr rfl))

end Create

section Collect

theorem mem_inVarsThings : t ∈ s.inVarsThings ↔ s.inVars t := by
  rw [inVarsThings, Finset.mem_biUnion]
  constructor
  · rintro ⟨n, -, hn⟩
    cases n with
    | thing u =>
      simp only at hn
      split_ifs at hn with hu
      · rwa [Finset.mem_singleton.mp hn]
      · exact absurd hn (Finset.notMem_empty t)
    | future i => exact absurd hn (Finset.notMem_empty t)
  · intro h
    have hnode := (of_decide_eq_true h).1
    exact ⟨.thing t, hnode, by simp [h]⟩

theorem foldlM_collectCb (s : Cached) (type : TypeId) {l : List ℕ} (hl : l.Nodup) {c : Finset ℕ}
    (hc : ∀ t ∈ l, t ∉ c) :
    ∃ c', l.foldlM (s.collectCb type) c = some c' ∧
      ∀ t, t ∈ c' ↔ t ∈ c ∨ t ∈ l ∧ s.typeOf t = some type := by
  induction l generalizing c with
  | nil => exact ⟨c, rfl, by simp⟩
  | cons u l ih =>
    obtain ⟨hu, hl⟩ := nodup_cons.mp hl
    obtain ⟨huc, hc⟩ := forall_mem_cons.mp hc
    rw [foldlM_cons]
    by_cases htype : s.typeOf u = some type
    · obtain ⟨c', heq, hmem⟩ := ih hl (c := insert u c) (fun t ht => by
        rw [Finset.mem_insert, not_or]
        exact ⟨fun h => hu (h ▸ ht), hc t ht⟩)
      refine ⟨c', by simp [collectCb, htype, huc, heq], fun t => ?_⟩
      rw [hmem, Finset.mem_insert, mem_cons]
      by_cases ht : t = u
      · simp [ht, htype]
      · simp [ht]
    · obtain ⟨c', heq, hmem⟩ := ih hl hc
      refine ⟨c', by simp [collectCb, htype, heq], fun t => ?_⟩
      rw [hmem, mem_cons]
      by_cases ht : t = u
      · simp [ht, htype]
      · simp [ht]

theorem found_live (h : s.Found t) : s.Live t := by
  rcases h with h | h | h
  · exact Memory.Seen.liveNode (m := s.toMemory) h
  · exact Memory.live_of_mem_things h
  · exact Memory.live_of_mem_gc h

/-- Every container is looked at, and no thing is in two of them. -/
theorem collectThings_spec (hwf : s.Wf) (hnone : s.cache type = none) :
    ∃ c, s.collectThings type = some c ∧ ∀ t, t ∈ c ↔ s.Found t ∧ s.typeOf t = some type := by
  have hvars : ∀ t, t ∈ s.inVarsThings ↔ s.Seen (.thing t) := fun t =>
    mem_inVarsThings.trans (inVars_iff fun n hn =>
      hwf.nodes n (Memory.Seen.liveNode (m := s.toMemory) hn))
  have hid : ∀ t, s.Seen (.thing t) → s.id t = 0 := fun t h => by
    simpa [Memory.isOpen] using isOpen_of_seen h
  have hnodup : (s.things.things ++ s.gc).Nodup :=
    s.things.nodup.append hwf.gc_nodup fun t ht htgc => (hwf.gc_id t htgc).2 ht
  obtain ⟨c, heq, hmem⟩ := foldlM_collectCb s type hnodup
    (c := s.inVarsThings.filter fun t => s.typeOf t = some type) (fun t ht htvars => by
      have hzero := hid t ((hvars t).mp (Finset.mem_filter.mp htvars).1)
      rcases mem_append.mp ht with ht | ht
      · exact hwf.things_id t ht hzero
      · exact (hwf.gc_id t ht).1 hzero)
  refine ⟨c, by simp only [collectThings, hnone, heq], fun t => ?_⟩
  rw [hmem, Finset.mem_filter, hvars, mem_append, ← Imap.mem_def, Found]
  tauto

end Collect

section Exec

variable {op : Op}

theorem Exact.typeAll_iff (hwf : s.Wf) (h : s.Exact) :
    (s.exec (.typeAll type)).Exact ↔ s.Meets (.typeAll type) := by
  by_cases hbuild : s.wrapOnly type = false ∧ s.index type = true ∧ s.cache type = none
  · obtain ⟨hwrap, hindex, hnone⟩ := hbuild
    obtain ⟨c, hcollect, hmem⟩ := collectThings_spec hwf hnone
    have hexec : s.exec (.typeAll type) =
        { s with cache := update s.cache type (some c) } := by
      simp [exec, typeAll, hwrap, hcollect, hindex, hnone]
    rw [hexec]
    constructor
    · intro hexact _ _ _ t hlive htype
      have hc := (hexact type c (by simp) t).mpr ⟨hlive, htype⟩
      exact ((hmem t).mp hc).1
    · intro hmeets type' c' hc' t
      by_cases htt : type' = type
      · subst htt
        simp only [update_self, Option.some.injEq] at hc'
        rw [← hc', hmem]
        exact ⟨fun hf => ⟨found_live hf.1, hf.2⟩,
          fun hl => ⟨hmeets hwrap hindex hnone t hl.1 hl.2, hl.2⟩⟩
      · simp only [update_of_ne htt] at hc'
        exact h type' c' hc' t
  · have hexec : s.exec (.typeAll type) = s := by
      simp only [exec, typeAll]
      by_cases hwrap : s.wrapOnly type = true
      · simp [hwrap]
      · have hnot : ¬(s.index type = true ∧ s.cache type = none) := fun hb =>
          hbuild ⟨by simpa using hwrap, hb⟩
        cases s.collectThings type <;> simp [hwrap, hnot]
    rw [hexec]
    exact iff_of_true h fun hwrap hindex hnone => absurd ⟨hwrap, hindex, hnone⟩ hbuild

theorem Exact.move_iff (h : s.Exact) {dead : List ℕ} (hallow : s.Allows (.move m dead)) :
    (s.exec (.move m dead)).Exact ↔ s.Meets (.move m dead) := by
  obtain ⟨-, hlive, hdead⟩ := hallow
  obtain ⟨hmemory, -, hcache⟩ := destroyed { s with toMemory := s.moved m } dead
  have hlive' : ∀ t, (s.exec (.move m dead)).Live t ↔ (s.moved m).Live t := by
    intro t
    simp only [exec]
    rw [hmemory]
    rfl
  have htype : (s.exec (.move m dead)).typeOf = s.typeOf := by
    simp only [exec]
    rw [hmemory]
    rfl
  constructor
  · intro hexact type c hc t ht
    by_contra hnot
    obtain ⟨hnlive, hndead⟩ := not_or.mp hnot
    have hc' := hcache type
    simp only [hc, Option.map_some] at hc'
    have hmem := (hexact type _ hc' t).mp (Finset.mem_filter.mpr ⟨ht, fun hd => hndead hd.1⟩)
    exact hnlive ((hlive' t).mp hmem.1)
  · intro hmeets type c' hc' t
    simp only [exec, hcache] at hc'
    obtain ⟨c, hc, rfl⟩ := Option.map_eq_some_iff.mp hc'
    rw [hlive', htype, Finset.mem_filter]
    constructor
    · rintro ⟨ht, hnot⟩
      have htt := ((h type c hc t).mp ht).2
      rcases hmeets type c hc t ht with hl | hd
      · exact ⟨hl, htt⟩
      · exact absurd ⟨hd, htt⟩ hnot
    · rintro ⟨hl, htt⟩
      exact ⟨(h type c hc t).mpr ⟨hlive t hl, htt⟩, fun hd => hdead t hd.1 hl⟩

theorem Exact.toThing (h : s.Exact) : (s.exec (.toThing t)).Exact := by
  intro type c hc u
  have hlive : (s.exec (.toThing t)).Live u ↔ s.Live u := by
    simp only [exec]
    rw [toMemory_cacheDrop]
    rfl
  have hc' : (s.cacheDrop t).cache type = some c := hc
  rw [cache_cacheDrop] at hc'
  rw [hlive]
  show u ∈ c ↔ s.Live u ∧ update s.typeOf t none u = some type
  split_ifs at hc' with htype
  · obtain ⟨c₀, hc₀, rfl⟩ := Option.map_eq_some_iff.mp hc'
    rw [Finset.mem_erase, h type c₀ hc₀]
    by_cases hu : u = t
    · simp [hu]
    · simp [hu]
  · rw [h type c hc']
    by_cases hu : u = t
    · simp [hu, htype]
    · simp [hu]

theorem Exact.of_cache {s' : Cached} (h : s.Exact) (hmemory : s'.toMemory = s.toMemory)
    (hcache : ∀ type c, s'.cache type = some c → s.cache type = some c) : s'.Exact := by
  intro type c hc t
  rw [hmemory]
  exact h type c (hcache type c hc) t

/-- After an operation the cache is exact if and only if the condition is met. -/
theorem Exact.exec_iff (hwf : s.Wf) (h : s.Exact) (hallow : s.Allows op) :
    (s.exec op).Exact ↔ s.Meets op := by
  have hclear : ∀ (type' type : TypeId) (c : Finset ℕ),
      update s.cache type' none type = some c → s.cache type = some c := by
    intro type' type c hc
    by_cases htt : type = type'
    · simp [htt] at hc
    · rwa [update_of_ne htt] at hc
  cases op with
  | create t id type =>
    have hnew : ¬s.LiveNode (.thing t) := fun hlive => hallow (hwf.nodes _ hlive)
    refine iff_of_true (h.cacheAdd (fun hl => hnew hl.1) rfl fun u => ?_) trivial
    refine (liveNode_created id hnew).trans ?_
    rw [Node.thing.injEq]
    rfl
  | toType t type vals =>
    obtain ⟨hlive, htype, hsame⟩ := hallow
    refine iff_of_true (h.cacheAdd (fun hl => hl.2 htype) rfl fun u => ?_) trivial
    refine (hsame (.thing u)).trans ⟨.inl, ?_⟩
    rintro (hu | rfl)
    · exact hu
    · exact hlive
  | toThing t => exact iff_of_true h.toThing trivial
  | move m dead => exact h.move_iff hallow
  | typeAll type => exact h.typeAll_iff hwf
  | setIndex type index =>
    refine iff_of_true (h.of_cache rfl fun type' c hc => ?_) trivial
    cases index with
    | true => exact hc
    | false => exact hclear type type' c hc
  | setWrapOnly type wrapOnly =>
    refine iff_of_true (h.of_cache rfl fun type' c hc => ?_) trivial
    cases wrapOnly with
    | true => exact hclear type type' c hc
    | false => exact hc

theorem wf_created (hwf : s.Wf) (id : ℕ) (hnew : .thing t ∉ s.nodes) :
    (s.created t id type).Wf := by
  have hnode : ∀ {u}, s.Live u → u ≠ t := fun hlive h => hnew (h ▸ hwf.nodes _ hlive)
  have hgc : ∀ u ∈ s.gc, u ≠ t := fun u hu => hnode (Memory.live_of_mem_gc hu)
  have hid : ∀ {u}, u ≠ t → (s.created t id type).id u = s.id u := fun h =>
    update_of_ne h _ _
  have hthings : ∀ {u}, u ∈ (s.created t id type).things → u ∈ s.things ∨ u = t ∧ id ≠ 0 := by
    intro u hu
    simp only [created] at hu
    split_ifs at hu with hzero
    · exact .inl hu
    · exact (Imap.mem_add.mp hu).imp_right fun h => ⟨h, hzero⟩
  refine ⟨fun u hu => ?_, fun u hu => ?_, hwf.gc_nodup, fun n hn => ?_⟩
  · rcases hthings hu with hu | ⟨rfl, hzero⟩
    · rw [hid (hnode (Memory.live_of_mem_things hu))]
      exact hwf.things_id u hu
    · simpa [created] using hzero
  · rw [hid (hgc u hu)]
    refine ⟨(hwf.gc_id u hu).1, fun h => ?_⟩
    exact (hthings h).elim (hwf.gc_id u hu).2 fun h => hgc u hu h.1
  · rw [liveNode_created id fun h => hnew (hwf.nodes _ h)] at hn
    exact Finset.mem_insert.mpr (hn.symm.imp_right (hwf.nodes n))

theorem wf_exec (hwf : s.Wf) (hallow : s.Allows op) : (s.exec op).Wf := by
  cases op with
  | create t id type =>
    simp only [exec]
    rw [toMemory_cacheAdd]
    exact wf_created hwf id hallow
  | toType t type vals =>
    simp only [exec]
    rw [toMemory_cacheAdd]
    exact ⟨hwf.things_id, hwf.gc_id, hwf.gc_nodup,
      fun n hn => hwf.nodes n ((hallow.2.2 n).mp hn)⟩
  | toThing t =>
    simp only [exec]
    rw [toMemory_cacheDrop]
    exact ⟨hwf.things_id, hwf.gc_id, hwf.gc_nodup, hwf.nodes⟩
  | move m dead =>
    obtain ⟨hwf', -, hdead⟩ := hallow
    obtain ⟨hmemory, hnodes, -⟩ := destroyed { s with toMemory := s.moved m } dead
    simp only [exec]
    rw [hmemory]
    refine ⟨hwf'.things_id, hwf'.gc_id, hwf'.gc_nodup, fun n hn => ?_⟩
    refine (hnodes n).mpr ⟨hwf'.nodes n hn, fun t ht h => ?_⟩
    subst h
    exact hdead t ht hn
  | typeAll type =>
    have hmemory : (s.typeAll type).toMemory = s.toMemory := by
      unfold typeAll
      cases s.collectThings type with
      | none => split_ifs <;> rfl
      | some c => simp only; split_ifs <;> rfl
    exact hmemory ▸ hwf
  | setIndex type index => exact hwf
  | setWrapOnly type wrapOnly => exact hwf

end Exec

/-- The cache of a type has exactly the instances which are alive, as long as all of them are
found whenever a cache is built, and those which die are destroyed at once. -/
theorem cache_exact {s₀ : Cached} (ops : List Op) (hwf : s₀.Wf)
    (hnone : ∀ type, s₀.cache type = none)
    (hops : Along step (fun s op => s.Allows op ∧ s.Meets op) s₀ ops)
    (hrun : run step s₀ ops = some s) :
    s.Exact ∧ ∀ op, s.Allows op → ((s.exec op).Exact ↔ s.Meets op) := by
  have h₀ : s₀.Exact := fun type c hc => absurd hc (by simp [hnone])
  have hinv : s.Wf ∧ s.Exact := by
    refine run_invariant_along (P := fun s => s.Wf ∧ s.Exact) ?_ ⟨hwf, h₀⟩ hops hrun
    rintro s op t ⟨hwf, h⟩ ⟨hallow, hmeets⟩ hstep
    rw [← Option.some.inj hstep]
    exact ⟨wf_exec hwf hallow, (h.exec_iff hwf hallow).mpr hmeets⟩
  exact ⟨hinv.2, fun op hallow => hinv.2.exec_iff hinv.1 hallow⟩

def smallMemory (id : ℕ) (vars held : List Val) : Memory where
  typeOf := fun t => if t = 1 then some 0 else none
  id := fun _ => id
  items := fun _ => []
  futureVal := fun _ => none
  nodes := {.thing 1}
  things := if id = 0 then .empty else .single 1
  gc := []
  vars := vars
  futures := []
  vtasks := []
  held := held

def smallCached (vars held : List Val) : Cached where
  toMemory := smallMemory 0 vars held
  cache := fun _ => none
  index := fun _ => true
  wrapOnly := fun _ => false

theorem liveNode_smallMemory (hholders : ∀ n ∈ (smallMemory id vars held).holders, n = .thing 1)
    (h : (smallMemory id vars held).LiveNode n) : n = .thing 1 := by
  refine Memory.LiveNode.induction (P := fun n => n = .thing 1) hholders
    (fun k l _ _ hl => ?_) h
  cases k with
  | thing t => exact absurd hl not_mem_nil
  | future i => exact absurd hl not_mem_nil

theorem wf_smallMemory (hholders : ∀ n ∈ (smallMemory id vars held).holders, n = .thing 1) :
    (smallMemory id vars held).Wf where
  things_id := by
    intro t ht hid
    have hzero : id = 0 := hid
    subst hzero
    exact Imap.not_mem_empty t ht
  gc_id := fun t ht => absurd ht not_mem_nil
  gc_nodup := nodup_nil
  nodes := fun n hn => Finset.mem_singleton.mpr (liveNode_smallMemory hholders hn)

/-- An instance in a variable is found, an instance is made, and the first one loses its type. -/
theorem cache_exact_var :
    ∃ s, run step (smallCached [.thing 1] []) [.typeAll 0, .create 2 0 0, .toThing 1] = some s ∧
      s.Exact ∧ s.cache 0 = some {2} := by
  refine ⟨_, rfl, (cache_exact [.typeAll 0, .create 2 0 0, .toThing 1] (wf_smallMemory (by decide))
    (fun _ => rfl) ?_ rfl).1, by decide⟩
  refine ⟨⟨trivial, fun _ _ _ t _ htype => ?_⟩, fun u hu => ?_⟩
  swap
  · rw [← Option.some.inj hu]
    have hnew : Node.thing 2 ∉ ((smallCached [.thing 1] []).exec (.typeAll 0)).nodes := by decide
    exact ⟨⟨hnew, trivial⟩, fun _ _ => ⟨⟨trivial, trivial⟩, fun _ _ => trivial⟩⟩
  have heq : t = 1 := by
    by_contra hne
    exact absurd htype (by simp [smallCached, smallMemory, hne])
  subst heq
  exact .inl ⟨.thing 1, by decide, .refl⟩

/-- An instance which is held by the expression when the cache is built, is missed when it is in
the collection afterwards. -/
theorem held_instance_missed :
    ∃ s, Along step Allows (smallCached [] [.thing 1])
        [.typeAll 0, .move (smallMemory 5 [] []) []] ∧
      run step (smallCached [] [.thing 1]) [.typeAll 0, .move (smallMemory 5 [] []) []] = some s ∧
      1 ∈ s.things ∧ s.typeOf 1 = some 0 ∧ s.cache 0 = some ∅ := by
  refine ⟨_, ⟨trivial, ?_⟩, rfl, by decide, rfl, by decide⟩
  intro u hu
  rw [← Option.some.inj hu]
  have hlive : ∀ t, (smallMemory 5 [] []).Live t → t = 1 := fun t ht =>
    Node.thing.inj (liveNode_smallMemory (by decide) ht)
  refine ⟨⟨wf_smallMemory (by decide), fun t ht => ?_, by simp⟩, fun _ _ => trivial⟩
  rw [hlive t ht]
  exact ⟨.thing 1, by decide, .refl⟩

end Cached

end ThingsDB.Instances
