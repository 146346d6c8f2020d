import ThingsDB.Types.Direct

/-!
# What the counts of a type say about its fields

The dependencies of a type are the types and enumerators its fields name, without the type
itself, and its own references are the fields which name it. The types without a name which
belong to its fields have dependencies in the same way. `Tracks` states this for a type which
is being worked on. A declaration which is read adds what it names, and a field which is
removed takes this away again.
-/

namespace ThingsDB.Types

open List

variable {own : Option TypeId} {K : TypeId → Prop} {base : Target → ℤ} {f : Field}
  {fs gs : List Field} {c c' : Counts} {t : Target}

section Names

mutual

/-- How often a target is a dependency of the types without a name below a field. -/
def Field.occs (t : Target) : Field → ℕ
  | .leaf .. => 0
  | .nest _ _ _ fields ano => ano.deps.count t + fieldsOccs t fields

def fieldsOccs (t : Target) : List Field → ℕ
  | [] => 0
  | f :: fs => f.occs t + fieldsOccs t fs

end

/-- A field which names the type it is on. -/
def Field.isSelf (own : Option TypeId) (f : Field) : Bool :=
  f.target?.any fun t => own.map Target.type = some t

/-- What a field names beside the type it is on. -/
def Field.other? (own : Option TypeId) (f : Field) : Option Target :=
  f.target?.filter fun t => own.map Target.type ≠ some t

/-- The dependencies which a type has for its fields. -/
def others (own : Option TypeId) (fs : List Field) : List Target := fs.filterMap (Field.other? own)

def selfCount (own : Option TypeId) (fs : List Field) : ℕ := fs.countP (Field.isSelf own)

mutual

/-- The dependencies of the types without a name are what their fields name. -/
def Field.Exact : Field → Prop
  | .leaf .. => True
  | .nest _ arr _ fields ano => arr = true ∧ ano.deps.Perm (others none fields) ∧ AllExact fields

def AllExact : List Field → Prop
  | [] => True
  | f :: fs => f.Exact ∧ AllExact fs

end

theorem fieldsOccs_eq_sum : fieldsOccs t fs = (fs.map (Field.occs t)).sum := by
  induction fs with
  | nil => rfl
  | cons f fs ih => rw [fieldsOccs, ih, map_cons, sum_cons]

theorem fieldsOccs_perm (h : fs.Perm gs) : fieldsOccs t fs = fieldsOccs t gs := by
  rw [fieldsOccs_eq_sum, fieldsOccs_eq_sum]
  exact (h.map _).sum_eq

theorem allExact_iff : AllExact fs ↔ ∀ f ∈ fs, f.Exact := by
  induction fs with
  | nil => simp [AllExact]
  | cons f fs ih => rw [AllExact, ih, forall_mem_cons]

mutual

theorem dropCond_eq (t : Target) : ∀ (f : Field) (rc : Target → ℤ),
    dropCond f rc t = rc t - f.occs t
  | .leaf .., rc => by rw [dropCond, Field.occs, Nat.cast_zero, sub_zero]
  | .nest _ _ _ fields ano, rc => by
    rw [dropCond, dropConds_eq t fields, Field.occs, decAll, Nat.cast_add]
    omega

theorem dropConds_eq (t : Target) : ∀ (fs : List Field) (rc : Target → ℤ),
    dropConds fs rc t = rc t - fieldsOccs t fs
  | [], rc => by rw [dropConds, fieldsOccs, Nat.cast_zero, sub_zero]
  | f :: fs, rc => by
    rw [dropConds, dropConds_eq t fs, dropCond_eq t f, fieldsOccs, Nat.cast_add]
    omega

end

end Names

section Dep

theorem others_cons : others own (f :: fs) = (f.other? own).toList ++ others own fs := by
  cases h : f.other? own <;> simp [others, h]

theorem selfCount_cons :
    selfCount own (f :: fs) = selfCount own fs + if f.isSelf own then 1 else 0 := by
  rw [selfCount, countP_cons]
  rfl

/-- A field names the type it is on, another type, or nothing. -/
theorem other?_or_isSelf (own : Option TypeId) (f : Field) :
    (∃ t, f.target? = some t ∧ own.map Target.type = some t ∧
      f.other? own = none ∧ f.isSelf own) ∨
    (∃ t, f.target? = some t ∧ own.map Target.type ≠ some t ∧
      f.other? own = some t ∧ f.isSelf own = false) ∨
    (f.target? = none ∧ f.other? own = none ∧ f.isSelf own = false) := by
  unfold Field.other? Field.isSelf
  generalize own.map Target.type = o
  cases f.target? with
  | none => exact Or.inr (Or.inr ⟨rfl, rfl, rfl⟩)
  | some t =>
    by_cases ho : o = some t
    · exact Or.inl ⟨t, rfl, ho, by simp [ho], by simp [ho]⟩
    · exact Or.inr (Or.inl ⟨t, rfl, ho, by simp [ho], by simp [ho]⟩)

theorem addDep_spec : (c.addDep own f).deps = c.deps ++ (f.other? own).toList ∧
    (c.addDep own f).selfref = (if f.isSelf own then (c.selfref + 1) % 256 else c.selfref) ∧
    ∀ t, (c.addDep own f).refcount t = c.refcount t + (f.other? own).toList.count t := by
  rcases other?_or_isSelf own f with
    ⟨t, ht, hown, ho, hs⟩ | ⟨t, ht, hown, ho, hs⟩ | ⟨ht, ho, hs⟩
  · simp [Counts.addDep, ht, hown, ho, hs, Counts.incSelf]
  · simp only [Counts.addDep, ht, hown, ho, hs, Counts.push]
    refine ⟨by simp, by simp, fun u => ?_⟩
    by_cases hu : u = t <;> simp [hu, Ne.symm]
  · simp [Counts.addDep, ht, ho, hs]

theorem removeDep_spec : (c.removeDep own f).deps = c.deps.diff (f.other? own).toList ∧
    (c.removeDep own f).selfref = (if f.isSelf own then (c.selfref + 255) % 256 else c.selfref) ∧
    ∀ t, (c.removeDep own f).refcount t = c.refcount t - (f.other? own).toList.count t := by
  rcases other?_or_isSelf own f with
    ⟨t, ht, hown, ho, hs⟩ | ⟨t, ht, hown, ho, hs⟩ | ⟨ht, ho, hs⟩
  · simp [Counts.removeDep, ht, hown, ho, hs, Counts.decSelf]
  · simp only [Counts.removeDep, ht, hown, ho, hs, Counts.pop]
    refine ⟨by simp, by simp, fun u => ?_⟩
    by_cases hu : u = t <;> simp [hu, Ne.symm]
  · simp [Counts.removeDep, ht, ho, hs]

end Dep

/-- The counts of a type are those of its fields. What other types add to `refcount` is in
`base`, and `K` holds for the types which exist. -/
structure Tracks (own : Option TypeId) (K : TypeId → Prop) (base : Target → ℤ)
    (fs : List Field) (c : Counts) : Prop where
  deps : c.deps.Perm (others own fs)
  selfref : c.selfref = selfCount own fs
  small : c.selfref < 256
  refcount : ∀ t, c.refcount t = base t + c.deps.count t + fieldsOccs t fs
  known : ∀ i, 0 < c.deps.count (.type i) + fieldsOccs (.type i) fs → K i

namespace Tracks

theorem perm (h : Tracks own K base fs c) (hp : fs.Perm gs) : Tracks own K base gs c where
  deps := h.deps.trans (hp.filterMap _)
  selfref := h.selfref.trans (hp.countP_eq _)
  small := h.small
  refcount t := by rw [h.refcount, fieldsOccs_perm hp]
  known i hi := h.known i (by rwa [fieldsOccs_perm hp])

theorem addDep (h : Tracks own K (fun t => base t + f.occs t) fs c)
    (hsmall : f.isSelf own → c.selfref ≠ 255) (hknown : ∀ i, f.other? own = some (.type i) → K i)
    (hbelow : ∀ i, 0 < f.occs (.type i) → K i) : Tracks own K base (f :: fs) (c.addDep own f) := by
  have hcount : ∀ t, (c.addDep own f).deps.count t =
      c.deps.count t + (f.other? own).toList.count t := by
    intro t
    rw [addDep_spec.1, count_append]
  constructor
  case deps =>
    rw [addDep_spec.1, others_cons]
    exact perm_append_comm.trans (h.deps.append_left _)
  case selfref =>
    have hs := h.small
    rw [addDep_spec.2.1, selfCount_cons, ← h.selfref]
    split_ifs with hself
    · have := hsmall hself
      omega
    · rfl
  case small =>
    have hs := h.small
    rw [addDep_spec.2.1]
    split_ifs <;> omega
  case refcount =>
    intro t
    rw [addDep_spec.2.2, h.refcount, hcount, fieldsOccs]
    push_cast
    omega
  case known =>
    intro i hi
    rw [hcount, fieldsOccs] at hi
    by_cases hother : .type i ∈ (f.other? own).toList
    · exact hknown i (Option.mem_toList.mp hother)
    · rw [count_eq_zero.mpr hother] at hi
      by_cases hf : 0 < f.occs (.type i)
      · exact hbelow i hf
      · exact h.known i (by omega)

theorem removeDep (h : Tracks own K base (f :: fs) c) :
    Tracks own K (fun t => base t + f.occs t) fs (c.removeDep own f) := by
  have hdeps : (c.removeDep own f).deps.Perm (others own fs) := by
    have hperm := h.deps
    rw [others_cons] at hperm
    rw [removeDep_spec.1]
    cases hother : f.other? own with
    | none => simpa [hother] using hperm
    | some t => simpa [hother] using hperm.diff_right [t]
  have hcount : ∀ t, c.deps.count t =
      (c.removeDep own f).deps.count t + (f.other? own).toList.count t := by
    intro t
    rw [h.deps.count_eq, hdeps.count_eq, others_cons, count_append, Nat.add_comm]
  constructor
  case deps => exact hdeps
  case selfref =>
    have hs := h.small
    have href := h.selfref
    rw [selfCount_cons] at href
    rw [removeDep_spec.2.1]
    split_ifs at href ⊢ <;> omega
  case small =>
    have hs := h.small
    rw [removeDep_spec.2.1]
    split_ifs <;> omega
  case refcount =>
    intro t
    rw [removeDep_spec.2.2, h.refcount, hcount, fieldsOccs]
    push_cast
    omega
  case known =>
    intro i hi
    apply h.known i
    rw [hcount, fieldsOccs]
    omega

theorem dropCond (h : Tracks own K (fun t => base t + f.occs t) fs c) :
    Tracks own K base fs { c with refcount := Types.dropCond f c.refcount } where
  deps := h.deps
  selfref := h.selfref
  small := h.small
  refcount t := by
    simp only [dropCond_eq, h.refcount]
    omega
  known := h.known

theorem remove (h : Tracks own K base (f :: fs) c) : Tracks own K base fs (c.remove own f) :=
  h.removeDep.dropCond

end Tracks

/-- A field is made, and its dependency is counted together with what is below it. -/
structure Counted (K : TypeId → Prop) (own : Option TypeId) (c : Counts) (f : Field)
    (c' : Counts) : Prop where
  exact : f.Exact
  small : f.isSelf own = true → c.selfref ≠ 255
  known : ∀ i, f.other? own = some (.type i) → K i
  below : ∀ i, 0 < f.occs (.type i) → K i
  deps : c'.deps = (c.addDep own f).deps
  selfref : c'.selfref = (c.addDep own f).selfref
  refcount : ∀ t, c'.refcount t = (c.addDep own f).refcount t + f.occs t

theorem Tracks.counted (h : Tracks own K base fs c) (hf : Counted K own c f c') :
    Tracks own K base (f :: fs) c' := by
  have hshift : Tracks own K (fun t => (base t - f.occs t) + f.occs t) fs c :=
    ⟨h.deps, h.selfref, h.small, fun t => by rw [h.refcount]; omega, h.known⟩
  have hadd := hshift.addDep hf.small hf.known hf.below
  exact
    { deps := hf.deps ▸ hadd.deps
      selfref := hf.selfref.trans hadd.selfref
      small := hf.selfref ▸ hadd.small
      refcount := fun t => by
        rw [hf.refcount, hadd.refcount, hf.deps]
        omega
      known := hf.deps ▸ hadd.known }

end ThingsDB.Types
