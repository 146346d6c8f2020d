import ThingsDB.Gc.Passes

/-!
# One run of the collector

What is kept between the runs: things refer to things which are alive, the queue is
sorted by change id, and a thing in the queue does not refer to one which entered the
queue before. A run destroys the unreachable things of the queue which are stored.
-/

namespace ThingsDB.Gc

open Util Mark List

variable {c : Collection} {e : Entry} {t x : ℕ}

def Sorted (gc : List Entry) : Prop := gc.Pairwise fun e e' => e.changeId ≤ e'.changeId

/-- What holds for a collection between two actions. -/
structure Inv (c : Collection) : Prop where
  roots : ∀ t ∈ roots c, c.Alive t
  closed : ∀ t, c.Alive t → ∀ x ∈ succ c t, c.Alive x
  walked : ∀ t, c.Alive t → ∀ v ∈ c.vals t, Walked v
  walkedArgs : ∀ args ∈ c.vtasks, ∀ v ∈ args, Walked v
  nodup : (c.gc.map Entry.thing).Nodup
  disjoint : ∀ e ∈ c.gc, e.thing ∉ c.things
  sweep : ∀ t, t ∈ c.sweep ↔ c.Alive t
  sorted : Sorted c.gc
  bound : ∀ e ∈ c.gc, e.changeId ≤ c.ccid
  age : ∀ e ∈ c.gc, ∀ e' ∈ c.gc, e'.thing ∈ succ c e.thing → e.changeId ≤ e'.changeId
  fresh : ∀ t, c.Alive t → t < c.nextId

/-- Values which are stored are walked completely, a thing in the queue is not given a
reference to one which entered the queue before, and when the collector runs a thing of
the collection which refers to a thing in the queue is in use. -/
def Careful (c : Collection) : Action → Prop
  | .create _ vals => ∀ v ∈ vals, Walked v
  | .change t vals => (∀ v ∈ vals, Walked v) ∧ ∀ e ∈ c.gc, e.thing = t →
      ∀ e' ∈ c.gc, e'.thing ∈ refsVec vals → e.changeId ≤ e'.changeId
  | .gc => ∀ t ∈ c.things, (∃ e ∈ c.gc, e.thing ∈ succ c t) → Reachable c t
  | _ => True

theorem Reachable.alive (hinv : Inv c) (h : Reachable c t) : c.Alive t := by
  obtain ⟨r, hr, hpath⟩ := h
  induction hpath with
  | refl => exact hinv.roots r hr
  | tail _ hstep ih => exact hinv.closed _ ih _ hstep

theorem Reachable.step (h : Reachable c t) (hx : x ∈ succ c t) : Reachable c x := by
  obtain ⟨r, hr, hpath⟩ := h
  exact ⟨r, hr, hpath.tail hx⟩

/-- The walk from the roots finds the things in use. -/
theorem reachable_iff_walk (hinv : Inv c) :
    Reachable c t ↔ ∃ r ∈ c.vtasks.flatMap walkVals ++ c.enums ++ [c.root],
      Path (fun t => walkVals (c.vals t)) r t := by
  have hroots : ∀ r, r ∈ c.vtasks.flatMap walkVals ++ c.enums ++ [c.root] ↔ r ∈ roots c := by
    intro r
    have hargs : r ∈ c.vtasks.flatMap walkVals ↔ r ∈ c.vtasks.flatMap refsVec := by
      simp only [mem_flatMap]
      constructor
      · rintro ⟨args, hargs, hr⟩
        exact ⟨args, hargs, (mem_walkVals_iff (hinv.walkedArgs args hargs)).mp hr⟩
      · rintro ⟨args, hargs, hr⟩
        exact ⟨args, hargs, (mem_walkVals_iff (hinv.walkedArgs args hargs)).mpr hr⟩
    simp [roots, hargs]
  have hstep : ∀ t x, c.Alive t → (x ∈ walkVals (c.vals t) ↔ x ∈ succ c t) :=
    fun t x ht => mem_walkVals_iff (hinv.walked t ht)
  constructor
  · rintro ⟨r, hr, hpath⟩
    refine ⟨r, (hroots r).mpr hr, ?_⟩
    induction hpath with
    | refl => exact Relation.ReflTransGen.refl
    | tail hpath hx ih => exact ih.tail ((hstep _ _ (Reachable.alive hinv ⟨r, hr, hpath⟩)).mpr hx)
  · rintro ⟨r, hr, hpath⟩
    have hr := (hroots r).mp hr
    induction hpath with
    | refl => exact ⟨r, hr, Relation.ReflTransGen.refl⟩
    | tail _ hx ih => exact ih.step ((hstep _ _ (ih.alive hinv)).mp hx)

theorem mem_markThings (hinv : Inv c) : t ∈ c.markThings ↔ c.Alive t ∧ ¬Reachable c t := by
  have hmarks := marks_markThings c
  have hall : ∀ r ∈ c.vtasks.flatMap walkVals ++ c.enums ++ [c.root], ∀ b,
      Path (fun t => walkVals (c.vals t)) r b → b ∈ c.sweep := by
    intro r hr b hb
    exact (hinv.sweep b).mpr (((reachable_iff_walk hinv).mpr ⟨r, hr, hb⟩).alive hinv)
  rw [reachable_iff_walk hinv, ← hinv.sweep]
  constructor
  · intro ht
    have hsweep := hmarks.subset ht
    exact ⟨hsweep, fun hr => (hmarks.notMem_iff hall hsweep).mpr hr ht⟩
  · rintro ⟨hsweep, hr⟩
    by_contra ht
    exact hr ((hmarks.notMem_iff hall hsweep).mp ht)

/-- The entries which are counted are the first ones of a sorted queue. -/
theorem take_countP {gc : List Entry} (h : Sorted gc) (scid : ℕ) :
    gc.take (gc.countP fun e => e.changeId ≤ scid) = gc.filter (fun e => e.changeId ≤ scid) ∧
      gc.drop (gc.countP fun e => e.changeId ≤ scid) =
        gc.filter (fun e => scid < e.changeId) := by
  induction gc with
  | nil => simp
  | cons e gc ih =>
    obtain ⟨hhead, htail⟩ := pairwise_cons.mp h
    by_cases hle : e.changeId ≤ scid
    · simp [hle, Nat.not_lt.mpr hle, ih htail]
    · have hlt := Nat.lt_of_not_le hle
      have hlater : ∀ e' ∈ gc, scid < e'.changeId :=
        fun e' he' => Nat.lt_of_lt_of_le hlt (hhead e' he')
      have hcount : gc.countP (fun e => e.changeId ≤ scid) = 0 := by
        rw [countP_eq_zero]
        intro e' he'
        simpa using hlater e' he'
      simp [hle, hlt, hcount]
      constructor
      · intro e' he'
        exact hlater e' he'
      · exact (filter_eq_self.mpr fun e' he' => by simpa using hlater e' he').symm

theorem eq_of_thing_eq (hinv : Inv c) {e' : Entry} (he : e ∈ c.gc) (he' : e' ∈ c.gc)
    (h : e.thing = e'.thing) : e = e' :=
  inj_on_of_nodup_map hinv.nodup he he' h

namespace Collection

variable (c)

/-- The entries of the queue which are counted by the first loop, and the others. -/
def stored : List Entry := c.gc.filter fun e => e.changeId ≤ c.scid

def later : List Entry := c.gc.filter fun e => c.scid < e.changeId

def flagged : Finset ℕ := c.markThings ∪ (c.later.map Entry.thing).toFinset

/-- The things with the flag, and the collection, after the second loop. -/
def shifted : Finset ℕ × Imap := shiftLoop c.stored c.flagged c.things

def moved : List ℕ := c.shifted.2.things.filter fun t => t ∈ c.shifted.1

end Collection

theorem mem_stored : e ∈ c.stored ↔ e ∈ c.gc ∧ e.changeId ≤ c.scid := by
  simp [Collection.stored]

theorem mem_later : e ∈ c.later ↔ e ∈ c.gc ∧ c.scid < e.changeId := by
  simp [Collection.later]

/-- A run in closed form. -/
theorem collectGarbage_eq (hinv : Inv c) :
    collectGarbage c =
      { c with
        vals := fun t => if t ∈ c.markThings ∧ ∃ e ∈ c.gc, e.changeId ≤ c.scid ∧ e.thing = t
          then [] else c.vals t
        things := (c.moved.map fun t => (⟨c.ccid, t⟩ : Entry)).foldl
          (fun things e => things.pop e.thing) c.shifted.2
        gc := c.later ++ c.moved.map fun t => ⟨c.ccid, t⟩
        sweep := c.shifted.1 ∪ c.shifted.2.things.toFinset } := by
  obtain ⟨htake, hdrop⟩ := take_countP hinv.sorted c.scid
  simp only [collectGarbage, clearLoop_eq c.scid c.gc hinv.nodup, Nat.zero_add, htake, hdrop]
  rw [sweepLoop_eq _ _ (shiftLoop _ _ c.things).2.nodup]
  simp only [drop_left]
  rfl

theorem mem_flagged (hinv : Inv c) :
    t ∈ c.flagged ↔ (c.Alive t ∧ ¬Reachable c t) ∨ ∃ e ∈ c.later, e.thing = t := by
  simp [Collection.flagged, mem_markThings hinv]

theorem thing_ne_of_later (hinv : Inv c) {e' : Entry} (he : e ∈ c.later) (he' : e' ∈ c.stored) :
    e.thing ≠ e'.thing := by
  intro heq
  obtain ⟨hmem, hlt⟩ := mem_later.mp he
  obtain ⟨hmem', hle⟩ := mem_stored.mp he'
  rw [eq_of_thing_eq hinv hmem hmem' heq] at hlt
  omega

theorem notMem_flagged_of_stored (hinv : Inv c) (he : e ∈ c.stored) :
    e.thing ∉ c.flagged ↔ Reachable c e.thing := by
  have halive : c.Alive e.thing := Or.inr ⟨e, (mem_stored.mp he).1, rfl⟩
  have hno : ¬∃ e' ∈ c.later, e'.thing = e.thing := by
    rintro ⟨e', he', heq⟩
    exact thing_ne_of_later hinv he' he heq
  simp [mem_flagged hinv, halive, hno]

theorem mem_shifted_fst : t ∈ c.shifted.1 ↔ t ∈ c.flagged ∧ ∀ e ∈ c.stored, e.thing ≠ t :=
  shiftLoop_fst c.stored c.flagged c.things t

section

variable (hinv : Inv c)

include hinv

theorem mem_shifted_snd :
    t ∈ c.shifted.2 ↔ t ∈ c.things ∨ Reachable c t ∧ ∃ e ∈ c.stored, e.thing = t := by
  have hnd : (c.stored.map Entry.thing).Nodup :=
    List.Nodup.sublist (List.Sublist.map _ filter_sublist) hinv.nodup
  have hdisj : ∀ e ∈ c.stored, e.thing ∉ c.things :=
    fun e he => hinv.disjoint e (mem_stored.mp he).1
  rw [Collection.shifted, shiftLoop_snd c.stored hnd c.flagged c.things hdisj t]
  constructor
  · rintro (ht | ⟨hu, e, he, rfl⟩)
    · exact Or.inl ht
    · exact Or.inr ⟨(notMem_flagged_of_stored hinv he).mp hu, e, he, rfl⟩
  · rintro (ht | ⟨hr, e, he, rfl⟩)
    · exact Or.inl ht
    · exact Or.inr ⟨(notMem_flagged_of_stored hinv he).mpr hr, e, he, rfl⟩

theorem mem_moved : t ∈ c.moved ↔ t ∈ c.things ∧ ¬Reachable c t := by
  simp only [Collection.moved, mem_filter, decide_eq_true_eq, ← Imap.mem_def,
    mem_shifted_fst, mem_flagged hinv, mem_shifted_snd hinv]
  constructor
  · rintro ⟨ht | ⟨-, e, he, rfl⟩, hmem, hne⟩
    · rcases hmem with hmem | ⟨e, he, rfl⟩
      · exact ⟨ht, hmem.2⟩
      · exact absurd ht (hinv.disjoint e (mem_later.mp he).1)
    · exact absurd rfl (hne e he)
  · rintro ⟨ht, hr⟩
    refine ⟨Or.inl ht, Or.inl ⟨Or.inl ht, hr⟩, ?_⟩
    rintro e he rfl
    exact hinv.disjoint e (mem_stored.mp he).1 ht

theorem gc_collectGarbage :
    (collectGarbage c).gc = c.later ++ c.moved.map fun t => ⟨c.ccid, t⟩ := by
  rw [collectGarbage_eq hinv]

theorem mem_gc_collectGarbage :
    e ∈ (collectGarbage c).gc ↔
      e ∈ c.later ∨ e.changeId = c.ccid ∧ e.thing ∈ c.things ∧ ¬Reachable c e.thing := by
  rw [gc_collectGarbage hinv, mem_append, mem_map]
  refine or_congr Iff.rfl ⟨?_, ?_⟩
  · rintro ⟨t, ht, rfl⟩
    exact ⟨rfl, (mem_moved hinv).mp ht⟩
  · rintro ⟨hid, ht⟩
    exact ⟨e.thing, (mem_moved hinv).mpr ht, by rw [← hid]⟩

/-- Things in use are restored, the others leave the collection. -/
theorem mem_things_collectGarbage :
    t ∈ (collectGarbage c).things ↔
      Reachable c t ∧ (t ∈ c.things ∨ ∃ e ∈ c.stored, e.thing = t) := by
  have hne : (∀ e ∈ c.moved.map (fun t => (⟨c.ccid, t⟩ : Entry)), e.thing ≠ t) ↔ t ∉ c.moved := by
    rw [forall_mem_map]
    exact ⟨fun h ht => h t ht rfl, fun h x hx hxt => h (hxt ▸ hx)⟩
  rw [collectGarbage_eq hinv]
  simp only [mem_foldl_pop, hne, mem_moved hinv, mem_shifted_snd hinv]
  constructor
  · rintro ⟨ht | ⟨hr, hex⟩, hnot⟩
    · exact ⟨by_contra fun h => hnot ⟨ht, h⟩, Or.inl ht⟩
    · exact ⟨hr, Or.inr hex⟩
  · rintro ⟨hr, ht | hex⟩
    · exact ⟨Or.inl ht, fun h => h.2 hr⟩
    · exact ⟨Or.inr ⟨hr, hex⟩, fun h => h.2 hr⟩

/-- A thing is destroyed if it is in the queue, stored and not in use. -/
theorem alive_collectGarbage :
    (collectGarbage c).Alive t ↔
      c.Alive t ∧ ((∃ e ∈ c.stored, e.thing = t) → Reachable c t) := by
  rw [Collection.Alive, mem_things_collectGarbage hinv]
  simp only [mem_gc_collectGarbage hinv]
  constructor
  · rintro (⟨hr, -⟩ | ⟨e, he | ⟨-, ht, hr⟩, rfl⟩)
    · exact ⟨hr.alive hinv, fun _ => hr⟩
    · refine ⟨Or.inr ⟨e, (mem_later.mp he).1, rfl⟩, ?_⟩
      rintro ⟨e', he', heq⟩
      exact absurd heq.symm (thing_ne_of_later hinv he he')
    · refine ⟨Or.inl ht, ?_⟩
      rintro ⟨e', he', heq⟩
      exact absurd ht (heq ▸ hinv.disjoint e' (mem_stored.mp he').1)
  · rintro ⟨ht | ⟨e, he, rfl⟩, himp⟩
    · by_cases hr : Reachable c t
      · exact Or.inl ⟨hr, Or.inl ht⟩
      · exact Or.inr ⟨⟨c.ccid, t⟩, Or.inr ⟨rfl, ht, hr⟩, rfl⟩
    · by_cases hle : e.changeId ≤ c.scid
      · have hex : ∃ e' ∈ c.stored, e'.thing = e.thing := ⟨e, mem_stored.mpr ⟨he, hle⟩, rfl⟩
        exact Or.inl ⟨himp hex, Or.inr hex⟩
      · exact Or.inr ⟨e, Or.inl (mem_later.mpr ⟨he, Nat.lt_of_not_le hle⟩), rfl⟩

theorem vals_collectGarbage (ht : (collectGarbage c).Alive t) :
    (collectGarbage c).vals t = c.vals t := by
  rw [alive_collectGarbage hinv] at ht
  rw [collectGarbage_eq hinv]
  apply if_neg
  rintro ⟨hmark, e, he, hle, rfl⟩
  exact ((mem_markThings hinv).mp hmark).2 (ht.2 ⟨e, mem_stored.mpr ⟨he, hle⟩, rfl⟩)

theorem mem_sweep_collectGarbage : t ∈ (collectGarbage c).sweep ↔ (collectGarbage c).Alive t := by
  rw [alive_collectGarbage hinv, collectGarbage_eq hinv]
  simp only [Finset.mem_union, mem_toFinset, ← Imap.mem_def, mem_shifted_fst,
    mem_shifted_snd hinv, mem_flagged hinv]
  constructor
  · rintro (⟨hflag, hne⟩ | ht | ⟨hr, -⟩)
    · refine ⟨?_, fun ⟨e, he, heq⟩ => absurd heq (hne e he)⟩
      rcases hflag with ⟨halive, -⟩ | ⟨e, he, rfl⟩
      · exact halive
      · exact Or.inr ⟨e, (mem_later.mp he).1, rfl⟩
    · refine ⟨Or.inl ht, ?_⟩
      rintro ⟨e, he, rfl⟩
      exact absurd ht (hinv.disjoint e (mem_stored.mp he).1)
    · exact ⟨hr.alive hinv, fun _ => hr⟩
  · rintro ⟨ht | ⟨e, he, rfl⟩, himp⟩
    · exact Or.inr (Or.inl ht)
    · by_cases hle : e.changeId ≤ c.scid
      · have hex : ∃ e' ∈ c.stored, e'.thing = e.thing := ⟨e, mem_stored.mpr ⟨he, hle⟩, rfl⟩
        exact Or.inr (Or.inr ⟨himp hex, hex⟩)
      · have hlater := mem_later.mpr ⟨he, Nat.lt_of_not_le hle⟩
        exact Or.inl ⟨Or.inr ⟨e, hlater, rfl⟩, fun e' he' heq =>
          thing_ne_of_later hinv hlater he' heq.symm⟩

/-- What survives a run does not refer to what the run destroys. -/
theorem alive_of_mem_succ (hcare : Careful c .gc)
    (ht : (collectGarbage c).Alive t) (hx : x ∈ succ c t) : (collectGarbage c).Alive x := by
  obtain ⟨halive, himp⟩ := (alive_collectGarbage hinv).mp ht
  refine (alive_collectGarbage hinv).mpr ⟨hinv.closed t halive x hx, ?_⟩
  rintro ⟨e, he, rfl⟩
  obtain ⟨hmem, hle⟩ := mem_stored.mp he
  suffices Reachable c t from this.step hx
  rcases halive with hthing | ⟨e', he', rfl⟩
  · exact hcare t hthing ⟨e, hmem, hx⟩
  · have hage := hinv.age e' he' e hmem hx
    exact himp ⟨e', mem_stored.mpr ⟨he', hage.trans hle⟩, rfl⟩

theorem roots_collectGarbage : roots (collectGarbage c) = roots c := by
  rw [collectGarbage_eq hinv]
  rfl

theorem succ_collectGarbage (ht : (collectGarbage c).Alive t) :
    succ (collectGarbage c) t = succ c t := by
  rw [succ, vals_collectGarbage hinv ht, succ]

theorem Reachable.collectGarbage (h : Reachable c t) : (collectGarbage c).Alive t :=
  (alive_collectGarbage hinv).mpr ⟨h.alive hinv, fun _ => h⟩

end

theorem alive_of_mem_gc (he : e ∈ c.gc) : c.Alive e.thing := Or.inr ⟨e, he, rfl⟩

theorem Inv.collectGarbage (hinv : Inv c) (hcare : Careful c .gc) : Inv (collectGarbage c) := by
  have hccid : (Gc.collectGarbage c).ccid = c.ccid := by rw [collectGarbage_eq hinv]
  have hmem := fun e => mem_gc_collectGarbage (e := e) hinv
  have hbound : ∀ e ∈ (Gc.collectGarbage c).gc, e.changeId ≤ c.ccid := by
    intro e he
    rcases (hmem e).mp he with he | ⟨hid, -⟩
    · exact hinv.bound e (mem_later.mp he).1
    · exact hid.le
  constructor
  case roots =>
    intro t ht
    rw [roots_collectGarbage hinv] at ht
    exact Reachable.collectGarbage hinv ⟨t, ht, Relation.ReflTransGen.refl⟩
  case closed =>
    intro t ht x hx
    rw [succ_collectGarbage hinv ht] at hx
    exact alive_of_mem_succ hinv hcare ht hx
  case walked =>
    intro t ht
    rw [vals_collectGarbage hinv ht]
    exact hinv.walked t ((alive_collectGarbage hinv).mp ht).1
  case walkedArgs =>
    rw [collectGarbage_eq hinv]
    exact hinv.walkedArgs
  case nodup =>
    rw [gc_collectGarbage hinv, map_append, map_map]
    apply List.Nodup.append
    · exact List.Nodup.sublist (List.Sublist.map _ filter_sublist) hinv.nodup
    · exact List.Nodup.map (fun _ _ h => h) (c.shifted.2.nodup.filter _)
    · intro t ht ht'
      obtain ⟨e, he, rfl⟩ := mem_map.mp ht
      obtain ⟨x, hx, hxe⟩ := mem_map.mp ht'
      have hx := ((mem_moved hinv).mp hx).1
      exact hinv.disjoint e (mem_later.mp he).1 (hxe ▸ hx)
  case disjoint =>
    intro e he hthing
    obtain ⟨hr, hsrc⟩ := (mem_things_collectGarbage hinv).mp hthing
    rcases (hmem e).mp he with he | ⟨-, -, hnr⟩
    · rcases hsrc with ht | ⟨e', he', heq⟩
      · exact hinv.disjoint e (mem_later.mp he).1 ht
      · exact thing_ne_of_later hinv he he' heq.symm
    · exact hnr hr
  case sweep => exact fun t => mem_sweep_collectGarbage hinv
  case sorted =>
    rw [gc_collectGarbage hinv]
    apply pairwise_append.mpr
    refine ⟨List.Pairwise.sublist filter_sublist hinv.sorted, ?_, ?_⟩
    · exact pairwise_map.mpr (pairwise_of_forall fun _ _ => le_rfl)
    · intro e he e' he'
      obtain ⟨x, -, rfl⟩ := mem_map.mp he'
      exact hinv.bound e (mem_later.mp he).1
  case bound =>
    rw [hccid]
    exact hbound
  case age =>
    intro e he e' he' hsucc
    rw [succ_collectGarbage hinv (alive_of_mem_gc he)] at hsucc
    have hle := hbound e he
    rcases (hmem e').mp he' with he' | ⟨hid, -⟩
    · have he' := (mem_later.mp he').1
      rcases (hmem e).mp he with he | ⟨-, hthing, hnr⟩
      · exact hinv.age e (mem_later.mp he).1 e' he' hsucc
      · exact absurd (hcare e.thing hthing ⟨e', he', hsucc⟩) hnr
    · omega
  case fresh =>
    intro t ht
    have hfresh := hinv.fresh t ((alive_collectGarbage hinv).mp ht).1
    rw [collectGarbage_eq hinv]
    exact hfresh

end ThingsDB.Gc
