import ThingsDB.Gc.Heap

/-!
# The passes of a run

The walk over values is the marking of the library along the things which the walk
sees, and the loops of a run in closed form.
-/

namespace ThingsDB.Gc

open Util Mark List

mutual

def walkElem : Val → List ℕ
  | .thing t | .wrap _ t => [t]
  | .arr flags vec => if flags.mht then walkVarr vec else []
  | _ => []

def walkVarr : List Val → List ℕ
  | [] => []
  | v :: vec => walkElem v ++ walkVarr vec

end

def walk : Val → List ℕ
  | .set imap => imap.things
  | v => walkElem v

def walkVals (vals : List Val) : List ℕ := vals.flatMap walk

def Walked (v : Val) : Prop := ∀ t ∈ refs v, t ∈ walk v

instance (v : Val) : Decidable (Walked v) := inferInstanceAs (Decidable (∀ t ∈ refs v, t ∈ walk v))

variable {vals : List Val} {t : ℕ}

theorem mem_refsVec : t ∈ refsVec vals ↔ ∃ v ∈ vals, t ∈ refs v := by
  induction vals with
  | nil => simp [refsVec]
  | cons v vals ih => simp [refsVec, ih]

mutual

theorem walkElem_subset (v : Val) : ∀ t ∈ walkElem v, t ∈ refs v := by
  cases v with
  | thing | wrap => simp [walkElem, refs]
  | arr flags vec =>
    intro t ht
    rw [walkElem] at ht
    split_ifs at ht
    · exact walkVarr_subset vec t ht
    · exact absurd ht not_mem_nil
  | _ => simp [walkElem]

theorem walkVarr_subset (vec : List Val) : ∀ t ∈ walkVarr vec, t ∈ refsVec vec := by
  cases vec with
  | nil => simp [walkVarr]
  | cons v vec =>
    intro t ht
    rcases mem_append.mp ht with ht | ht
    · exact mem_append_left _ (walkElem_subset v t ht)
    · exact mem_append_right _ (walkVarr_subset vec t ht)

end

theorem walk_subset (v : Val) : ∀ t ∈ walk v, t ∈ refs v := by
  cases v with
  | set imap => exact fun t ht => ht
  | _ => exact walkElem_subset _

theorem mem_walkVals_iff (h : ∀ v ∈ vals, Walked v) : t ∈ walkVals vals ↔ t ∈ refsVec vals := by
  rw [mem_refsVec, walkVals, mem_flatMap]
  constructor
  · rintro ⟨v, hv, ht⟩
    exact ⟨v, hv, walk_subset v t ht⟩
  · rintro ⟨v, hv, ht⟩
    exact ⟨v, hv, h v hv t ht⟩

section Marking

variable (mark : ℕ → Finset ℕ → Finset ℕ)

mutual

theorem gcMarkElem_eq (v : Val) (u : Finset ℕ) :
    gcMarkElem mark v u = visitAll mark (walkElem v) u := by
  cases v with
  | thing | wrap => rfl
  | arr flags vec =>
    rw [gcMarkElem, walkElem]
    split_ifs
    · exact gcMarkVarr_eq vec u
    · rfl
  | _ => rfl

theorem gcMarkVarr_eq (vec : List Val) (u : Finset ℕ) :
    gcMarkVarr mark vec u = visitAll mark (walkVarr vec) u := by
  cases vec with
  | nil => rfl
  | cons v vec => rw [gcMarkVarr, walkVarr, visitAll_append, gcMarkElem_eq v, gcMarkVarr_eq vec]

end

theorem foldl_markIfSweep (ts : List ℕ) (u : Finset ℕ) :
    ts.foldl (fun u t => markIfSweep mark t u) u = visitAll mark ts u := by
  induction ts generalizing u with
  | nil => rfl
  | cons t ts ih => exact ih _

theorem gcVal_eq (v : Val) (u : Finset ℕ) : gcVal mark v u = visitAll mark (walk v) u := by
  cases v with
  | set imap => exact foldl_markIfSweep mark imap.things u
  | arr flags vec => exact gcMarkElem_eq mark (.arr flags vec) u
  | _ => rfl

theorem foldl_gcVal (vals : List Val) (u : Finset ℕ) :
    vals.foldl (fun u v => gcVal mark v u) u = visitAll mark (walkVals vals) u := by
  induction vals generalizing u with
  | nil => rfl
  | cons v vals ih =>
    rw [foldl_cons, ih, gcVal_eq, ← visitAll_append]
    rfl

theorem foldl_args (vtasks : List (List Val)) (u : Finset ℕ) :
    vtasks.foldl (fun u args => args.foldl (fun u v => gcVal mark v u) u) u =
      visitAll mark (vtasks.flatMap walkVals) u := by
  induction vtasks generalizing u with
  | nil => rfl
  | cons args vtasks ih =>
    rw [foldl_cons, ih, foldl_gcVal, ← visitAll_append]
    rfl

end Marking

theorem gcMarkThing_eq (vals : ℕ → List Val) (fuel : ℕ) :
    gcMarkThing vals fuel = visit (fun t => walkVals (vals t)) fuel := by
  induction fuel with
  | zero => rfl
  | succ fuel ih =>
    funext t u
    rw [gcMarkThing, visit, foldl_gcVal, ih]

/-- What marking does to the flags, along the things which are seen. -/
theorem marks_markThings (c : Collection) :
    Marks (fun t => walkVals (c.vals t)) (c.vtasks.flatMap walkVals ++ c.enums ++ [c.root])
      c.sweep c.markThings := by
  set succ := fun t => walkVals (c.vals t)
  have hvisit : ∀ a v, v ⊆ c.sweep → Marks succ [a] v (visit succ (c.sweep.card + 1) a v) := by
    intro a v hv
    apply marks_visit
    have hcard := Finset.card_le_card ((Finset.erase_subset a v).trans hv)
    omega
  have hall : ∀ (as : List ℕ) v, v ⊆ c.sweep →
      Marks succ as v (visitAll (visit succ (c.sweep.card + 1)) as v) :=
    marks_visitAll fun a v hv _ => hvisit a v hv
  simp only [Collection.markThings, gcMarkThing_eq, foldl_args, foldl_markIfSweep]
  have htasks := hall (c.vtasks.flatMap walkVals) c.sweep (Finset.Subset.refl _)
  have henums := hall c.enums _ htasks.subset
  exact (htasks.trans henums).trans (hvisit c.root _ (henums.subset.trans htasks.subset))

/-- The entries are counted, the flags of the later ones are set, and what is stored and
without a mark loses its values. -/
theorem clearLoop_eq (scid : ℕ) (gc : List Entry) (hnd : (gc.map Entry.thing).Nodup) (m : ℕ)
    (u : Finset ℕ) (vals : ℕ → List Val) :
    clearLoop scid gc m u vals =
      (m + gc.countP (fun e => e.changeId ≤ scid),
        u ∪ ((gc.filter fun e => scid < e.changeId).map Entry.thing).toFinset,
        fun t => if t ∈ u ∧ ∃ e ∈ gc, e.changeId ≤ scid ∧ e.thing = t then [] else vals t) := by
  induction gc generalizing m u vals with
  | nil => simp [clearLoop]
  | cons e gc ih =>
    simp only [map_cons, nodup_cons, mem_map, not_exists, not_and] at hnd
    obtain ⟨hne, hnd⟩ := hnd
    rw [clearLoop]
    split_ifs with hlt hmem
    · rw [ih hnd]
      refine Prod.ext ?_ (Prod.ext ?_ ?_)
      · simp [hlt]
      · ext t
        simp [hlt]
      · funext t
        refine if_congr ?_ rfl rfl
        simp only [Finset.mem_insert, mem_cons, exists_eq_or_imp]
        constructor
        · rintro ⟨ht | ht, e', he', hle, rfl⟩
          · exact absurd ht (hne e' he')
          · exact ⟨ht, Or.inr ⟨e', he', hle, rfl⟩⟩
        · rintro ⟨ht, ⟨hle, _⟩ | hex⟩
          · omega
          · exact ⟨Or.inr ht, hex⟩
    all_goals
      have hle : e.changeId ≤ scid := Nat.le_of_not_lt hlt
      rw [ih hnd]
      refine Prod.ext ?_ (Prod.ext ?_ ?_)
      · simp [hle]
        omega
      · simp [hlt]
      · funext t
        by_cases ht : t = e.thing
        · subst ht
          have hno : ¬∃ e' ∈ gc, e'.changeId ≤ scid ∧ e'.thing = e.thing := by
            rintro ⟨e', he', -, heq⟩
            exact hne e' he' heq
          simp [hmem, hle, hno]
        · have ht' : e.thing ≠ t := fun h => ht h.symm
          simp [ht, ht']

theorem shiftLoop_fst (gc : List Entry) (u : Finset ℕ) (things : Imap) (t : ℕ) :
    t ∈ (shiftLoop gc u things).1 ↔ t ∈ u ∧ ∀ e ∈ gc, e.thing ≠ t := by
  induction gc generalizing u things with
  | nil => simp [shiftLoop]
  | cons e gc ih =>
    rw [shiftLoop]
    split_ifs with hmem
    · rw [ih, Finset.mem_erase, forall_mem_cons]
      constructor
      · rintro ⟨⟨hne, ht⟩, hall⟩
        exact ⟨ht, fun h => hne h.symm, hall⟩
      · rintro ⟨ht, hne, hall⟩
        exact ⟨⟨fun h => hne h.symm, ht⟩, hall⟩
    · rw [ih, forall_mem_cons]
      constructor
      · rintro ⟨ht, hall⟩
        exact ⟨ht, fun h => hmem (h ▸ ht), hall⟩
      · rintro ⟨ht, -, hall⟩
        exact ⟨ht, hall⟩

theorem shiftLoop_snd (gc : List Entry) (hnd : (gc.map Entry.thing).Nodup) (u : Finset ℕ)
    (things : Imap) (hdisj : ∀ e ∈ gc, e.thing ∉ things) (t : ℕ) :
    t ∈ (shiftLoop gc u things).2 ↔ t ∈ things ∨ t ∉ u ∧ ∃ e ∈ gc, e.thing = t := by
  induction gc generalizing u things with
  | nil => simp [shiftLoop]
  | cons e gc ih =>
    simp only [map_cons, nodup_cons, mem_map, not_exists, not_and] at hnd
    obtain ⟨hne, hnd⟩ := hnd
    obtain ⟨hhead, htail⟩ := forall_mem_cons.mp hdisj
    rw [shiftLoop]
    split_ifs with hmem
    · rw [ih hnd _ _ fun e' he' h => htail e' he' (Imap.mem_pop.mp h).1]
      simp only [Imap.mem_pop, Finset.mem_erase, mem_cons, exists_eq_or_imp]
      constructor
      · rintro (⟨ht, -⟩ | ⟨hu, e', he', rfl⟩)
        · exact Or.inl ht
        · exact Or.inr ⟨fun h => hu ⟨hne e' he', h⟩, Or.inr ⟨e', he', rfl⟩⟩
      · rintro (ht | ⟨hu, rfl | hex⟩)
        · exact Or.inl ⟨ht, fun h => hhead (h ▸ ht)⟩
        · exact absurd hmem hu
        · exact Or.inr ⟨fun h => hu h.2, hex⟩
    · have htail' : ∀ e' ∈ gc, e'.thing ∉ things.add e.thing := by
        intro e' he' h
        rcases Imap.mem_add.mp h with h | h
        · exact htail e' he' h
        · exact hne e' he' h
      rw [ih hnd _ _ htail']
      simp only [Imap.mem_add, mem_cons, exists_eq_or_imp]
      constructor
      · rintro ((ht | rfl) | ⟨hu, hex⟩)
        · exact Or.inl ht
        · exact Or.inr ⟨hmem, Or.inl rfl⟩
        · exact Or.inr ⟨hu, Or.inr hex⟩
      · rintro (ht | ⟨hu, rfl | hex⟩)
        · exact Or.inl (Or.inl ht)
        · exact Or.inl (Or.inr rfl)
        · exact Or.inr ⟨hu, hex⟩

/-- The things without a mark are appended to the queue, in order; every flag is set. -/
theorem sweepLoop_eq (ccid : ℕ) (ts : List ℕ) (hnd : ts.Nodup) (u : Finset ℕ) (gc : List Entry) :
    sweepLoop ccid ts u gc =
      (u ∪ ts.toFinset, gc ++ (ts.filter fun t => t ∈ u).map fun t => ⟨ccid, t⟩) := by
  induction ts generalizing u gc with
  | nil => simp [sweepLoop]
  | cons t ts ih =>
    obtain ⟨hnotMem, hnd⟩ := nodup_cons.mp hnd
    rw [sweepLoop]
    split_ifs with hmem
    · rw [ih hnd]
      refine Prod.ext ?_ ?_
      · ext x
        simp only [Finset.mem_union, mem_toFinset, mem_cons]
        constructor
        · rintro (hx | hx)
          · exact Or.inl hx
          · exact Or.inr (Or.inr hx)
        · rintro (hx | rfl | hx)
          · exact Or.inl hx
          · exact Or.inl hmem
          · exact Or.inr hx
      · simp [hmem]
    · rw [ih hnd]
      refine Prod.ext ?_ ?_
      · simp [Finset.insert_union]
      · have hfilter : ts.filter (fun x => x ∈ insert t u) = ts.filter (fun x => x ∈ u) := by
          apply filter_congr
          intro x hx
          have hxt : x ≠ t := fun h => hnotMem (h ▸ hx)
          simp [hxt]
        rw [hfilter, filter_cons_of_neg (by simpa using hmem)]

theorem mem_foldl_pop (gc : List Entry) (things : Imap) (t : ℕ) :
    t ∈ gc.foldl (fun things e => things.pop e.thing) things ↔
      t ∈ things ∧ ∀ e ∈ gc, e.thing ≠ t := by
  induction gc generalizing things with
  | nil => simp
  | cons e gc ih =>
    rw [foldl_cons, ih, Imap.mem_pop, forall_mem_cons, and_assoc, ne_comm]

end ThingsDB.Gc
