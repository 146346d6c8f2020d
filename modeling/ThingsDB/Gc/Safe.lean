import ThingsDB.Gc.Collect

/-!
# Garbage collection is safe

The actions between the runs keep the invariant, and with it every run of the collector
leaves alive what is in use and what is referred to by a thing which survives.
-/

namespace ThingsDB.Gc

open Util Mark Transition List

variable {c c' : Collection} {a : Action} {e : Entry} {t x : ℕ} {vals : List Val}

/-- A collection with nothing in the queue, where every reference is to a thing of the
collection. -/
structure Start (c : Collection) : Prop where
  gc : c.gc = []
  roots : ∀ t ∈ roots c, t ∈ c.things
  closed : ∀ t ∈ c.things, ∀ x ∈ succ c t, x ∈ c.things
  sweep : ∀ t, t ∈ c.sweep ↔ t ∈ c.things
  fresh : ∀ t ∈ c.things, t < c.nextId

def AllWalked (c : Collection) : Prop :=
  (∀ t ∈ c.things, ∀ v ∈ c.vals t, Walked v) ∧ ∀ args ∈ c.vtasks, ∀ v ∈ args, Walked v

theorem Start.inv (h : Start c) (hw : AllWalked c) : Inv c := by
  have halive : ∀ t, c.Alive t ↔ t ∈ c.things := by simp [Collection.Alive, h.gc]
  constructor
  case roots => simpa only [halive] using h.roots
  case closed => simpa only [halive] using h.closed
  case walked => simpa only [halive] using hw.1
  case walkedArgs => exact hw.2
  case sweep => simpa only [halive] using h.sweep
  case fresh => simpa only [halive] using h.fresh
  all_goals simp [h.gc, Sorted]

theorem alive_create : (c.create t vals).Alive x ↔ c.Alive x ∨ x = t := by
  simp only [Collection.Alive, Collection.create, Imap.mem_add]
  rw [or_right_comm]

theorem vals_create_self : (c.create t vals).vals t = vals := Function.update_self _ _ _

theorem vals_create_of_ne (h : x ≠ t) : (c.create t vals).vals x = c.vals x :=
  Function.update_of_ne h _ _

theorem Inv.create (hinv : Inv c) (hw : ∀ v ∈ vals, Walked v) (hnext : c.nextId ≤ t)
    (hrefs : ∀ x ∈ refsVec vals, c.Alive x ∨ x = t) : Inv (c.create t vals) := by
  have hne : ∀ x, c.Alive x → x ≠ t := fun x hx => ((hinv.fresh x hx).trans_le hnext).ne
  constructor
  case roots => exact fun x hx => alive_create.mpr (Or.inl (hinv.roots x hx))
  case closed =>
    intro x hx y hy
    rcases alive_create.mp hx with hx | rfl
    · rw [succ, vals_create_of_ne (hne x hx)] at hy
      exact alive_create.mpr (Or.inl (hinv.closed x hx y hy))
    · rw [succ, vals_create_self] at hy
      exact alive_create.mpr (hrefs y hy)
  case walked =>
    intro x hx
    rcases alive_create.mp hx with hx | rfl
    · rw [vals_create_of_ne (hne x hx)]
      exact hinv.walked x hx
    · rw [vals_create_self]
      exact hw
  case walkedArgs => exact hinv.walkedArgs
  case nodup => exact hinv.nodup
  case disjoint =>
    intro e he hmem
    rcases Imap.mem_add.mp hmem with hmem | heq
    · exact hinv.disjoint e he hmem
    · exact hne _ (alive_of_mem_gc he) heq
  case sweep =>
    intro x
    rw [alive_create, ← hinv.sweep, or_comm]
    exact Finset.mem_insert
  case sorted => exact hinv.sorted
  case bound => exact hinv.bound
  case age =>
    intro e he e' he' hsucc
    rw [succ, vals_create_of_ne (hne _ (alive_of_mem_gc he))] at hsucc
    exact hinv.age e he e' he' hsucc
  case fresh =>
    intro x hx
    rcases alive_create.mp hx with hx | rfl
    · exact ((hinv.fresh x hx).trans_le hnext).trans (Nat.lt_succ_self t)
    · exact Nat.lt_succ_self x

theorem vals_setVals_self : (c.setVals t vals).vals t = vals := Function.update_self _ _ _

theorem vals_setVals_of_ne (h : x ≠ t) : (c.setVals t vals).vals x = c.vals x :=
  Function.update_of_ne h _ _

theorem Inv.setVals (hinv : Inv c) (hcare : Careful c (.change t vals))
    (hrefs : ∀ x ∈ refsVec vals, c.Alive x) : Inv (c.setVals t vals) where
  roots := hinv.roots
  closed := by
    intro x hx y hy
    by_cases hxt : x = t
    · rw [succ, hxt, vals_setVals_self] at hy
      exact hrefs y hy
    · rw [succ, vals_setVals_of_ne hxt] at hy
      exact hinv.closed x hx y hy
  walked := by
    intro x hx
    by_cases hxt : x = t
    · rw [hxt, vals_setVals_self]
      exact hcare.1
    · rw [vals_setVals_of_ne hxt]
      exact hinv.walked x hx
  walkedArgs := hinv.walkedArgs
  nodup := hinv.nodup
  disjoint := hinv.disjoint
  sweep := hinv.sweep
  sorted := hinv.sorted
  bound := hinv.bound
  age := by
    intro e he e' he' hsucc
    by_cases het : e.thing = t
    · rw [succ, het, vals_setVals_self] at hsucc
      exact hcare.2 e he het e' he' hsucc
    · rw [succ, vals_setVals_of_ne het] at hsucc
      exact hinv.age e he e' he' hsucc
  fresh := hinv.fresh

theorem alive_restore (he : e ∈ c.gc) : (c.restore e).Alive x ↔ c.Alive x := by
  simp only [Collection.Alive, Collection.restore, Imap.mem_add]
  constructor
  · rintro ((hx | rfl) | ⟨e', he', rfl⟩)
    · exact Or.inl hx
    · exact alive_of_mem_gc he
    · exact alive_of_mem_gc (mem_of_mem_erase he')
  · rintro (hx | ⟨e', he', rfl⟩)
    · exact Or.inl (Or.inl hx)
    · by_cases heq : e' = e
      · exact Or.inl (Or.inr (by rw [heq]))
      · exact Or.inr ⟨e', (mem_erase_of_ne heq).mpr he', rfl⟩

/-- A thing which is taken back from the queue stays alive, and so does all the rest. -/
theorem Inv.restore (hinv : Inv c) (he : e ∈ c.gc) : Inv (c.restore e) := by
  have hsub : ∀ e' ∈ c.gc.erase e, e' ∈ c.gc := fun e' he' => mem_of_mem_erase he'
  have hlist : c.gc.Nodup := List.Nodup.of_map _ hinv.nodup
  constructor
  case roots => exact fun x hx => (alive_restore he).mpr (hinv.roots x hx)
  case closed =>
    intro x hx y hy
    exact (alive_restore he).mpr (hinv.closed x ((alive_restore he).mp hx) y hy)
  case walked => exact fun x hx => hinv.walked x ((alive_restore he).mp hx)
  case walkedArgs => exact hinv.walkedArgs
  case nodup => exact hinv.nodup.sublist (List.Sublist.map _ erase_sublist)
  case disjoint =>
    intro e' he' hmem
    rcases Imap.mem_add.mp hmem with hmem | heq
    · exact hinv.disjoint e' (hsub e' he') hmem
    · rw [eq_of_thing_eq hinv (hsub e' he') he heq] at he'
      exact List.Nodup.not_mem_erase hlist he'
  case sweep => exact fun x => (hinv.sweep x).trans (alive_restore he).symm
  case sorted => exact List.Pairwise.sublist erase_sublist hinv.sorted
  case bound => exact fun e' he' => hinv.bound e' (hsub e' he')
  case age => exact fun e₁ he₁ e₂ he₂ => hinv.age e₁ (hsub e₁ he₁) e₂ (hsub e₂ he₂)
  case fresh => exact fun x hx => hinv.fresh x ((alive_restore he).mp hx)

theorem Inv.findThing (hinv : Inv c) (t : ℕ) : Inv (c.findThing t) := by
  unfold Collection.findThing
  split_ifs with ht
  · exact hinv
  · cases hfind : c.gc.find? (fun e => e.thing = t) with
    | none => exact hinv
    | some e => exact hinv.restore (mem_of_find?_eq_some hfind)

theorem alive_drop (hinv : Inv c) (ht : t ∈ c.things) : (c.drop t).Alive x ↔ c.Alive x ∧ x ≠ t := by
  simp only [Collection.Alive, Collection.drop, Imap.mem_pop]
  constructor
  · rintro (⟨hx, hne⟩ | ⟨e, he, rfl⟩)
    · exact ⟨Or.inl hx, hne⟩
    · exact ⟨alive_of_mem_gc he, fun h => hinv.disjoint e he (h ▸ ht)⟩
  · rintro ⟨hx | hx, hne⟩
    · exact Or.inl ⟨hx, hne⟩
    · exact Or.inr hx

theorem Inv.drop (hinv : Inv c) (ht : t ∈ c.things) (hroots : t ∉ Gc.roots c)
    (hrefs : ∀ x, c.Alive x → t ∉ succ c x) : Inv (c.drop t) := by
  have halive := fun x => alive_drop (x := x) hinv ht
  constructor
  case roots =>
    intro x hx
    exact (halive x).mpr ⟨hinv.roots x hx, fun h => hroots (h ▸ hx)⟩
  case closed =>
    intro x hx y hy
    have hx := ((halive x).mp hx).1
    exact (halive y).mpr ⟨hinv.closed x hx y hy, fun h => hrefs x hx (h ▸ hy)⟩
  case walked => exact fun x hx => hinv.walked x ((halive x).mp hx).1
  case walkedArgs => exact hinv.walkedArgs
  case nodup => exact hinv.nodup
  case disjoint => exact fun e he hmem => hinv.disjoint e he (Imap.mem_pop.mp hmem).1
  case sweep =>
    intro x
    rw [halive, ← hinv.sweep, and_comm]
    exact Finset.mem_erase
  case sorted => exact hinv.sorted
  case bound => exact hinv.bound
  case age => exact hinv.age
  case fresh => exact fun x hx => hinv.fresh x ((halive x).mp hx).1

theorem Inv.step (hinv : Inv c) (hcare : Careful c a) (hstep : step c a = some c') : Inv c' := by
  cases a with
  | create t vals =>
    obtain ⟨⟨hnext, hrefs⟩, hc'⟩ := Option.ite_none_right_eq_some.mp hstep
    exact Option.some.inj hc' ▸ hinv.create hcare hnext hrefs
  | change t vals =>
    obtain ⟨⟨-, hrefs⟩, hc'⟩ := Option.ite_none_right_eq_some.mp hstep
    exact Option.some.inj hc' ▸ hinv.setVals hcare hrefs
  | find t => exact Option.some.inj hstep ▸ hinv.findThing t
  | drop t =>
    obtain ⟨⟨ht, hroots, hthings, hgc⟩, hc'⟩ := Option.ite_none_right_eq_some.mp hstep
    refine Option.some.inj hc' ▸ hinv.drop ht hroots ?_
    rintro x (hx | ⟨e, he, rfl⟩)
    · exact hthings x hx
    · exact hgc e he
  | commit ccid =>
    obtain ⟨hle, hc'⟩ := Option.ite_none_right_eq_some.mp hstep
    have hbound : ∀ e ∈ c.gc, e.changeId ≤ ccid := fun e he => (hinv.bound e he).trans hle
    exact Option.some.inj hc' ▸ { hinv with bound := hbound }
  | store scid =>
    obtain ⟨-, hc'⟩ := Option.ite_none_right_eq_some.mp hstep
    exact Option.some.inj hc' ▸ { hinv with }
  | gc => exact Option.some.inj hstep ▸ hinv.collectGarbage hcare

/-- What a run of the collector has to keep: what is in use is alive with its values, what
enters the queue is not in use, and what survives does not refer to what is destroyed. -/
structure SafeRun (c c' : Collection) : Prop where
  alive : ∀ t, Reachable c t → c'.Alive t ∧ c'.vals t = c.vals t
  moved : ∀ t ∈ c.things, (∃ e ∈ c'.gc, e.thing = t) → ¬Reachable c t
  survivors : ∀ t, c'.Alive t → ∀ x ∈ succ c' t, ¬(c.Alive x ∧ ¬c'.Alive x)

theorem Inv.safeRun (hinv : Inv c) (hcare : Careful c .gc) : SafeRun c (Gc.collectGarbage c) where
  alive := by
    intro t ht
    have halive := Reachable.collectGarbage hinv ht
    exact ⟨halive, vals_collectGarbage hinv halive⟩
  moved := by
    rintro t ht ⟨e, he, rfl⟩
    rcases (mem_gc_collectGarbage hinv).mp he with he | ⟨-, -, hr⟩
    · exact absurd ht (hinv.disjoint e (mem_later.mp he).1)
    · exact hr
  survivors := by
    intro t ht x hx hdestroyed
    rw [succ_collectGarbage hinv ht] at hx
    exact hdestroyed.2 (alive_of_mem_succ hinv hcare ht hx)

/-- In every run whose actions are careful the queue is sorted, the entries which the
collector counts are its first ones, and a run of the collector is safe. -/
theorem collectGarbage_safe {c₀ c : Collection} {as : List Action} (hstart : Start c₀)
    (hwalked : AllWalked c₀) (hrun : run step c₀ as = some c)
    (hcare : Along step Careful c₀ as) :
    Sorted c.gc ∧
      c.gc.take (clearLoop c.scid c.gc 0 c.markThings c.vals).1 =
        c.gc.filter (fun e => e.changeId ≤ c.scid) ∧
      (Careful c .gc → SafeRun c (Gc.collectGarbage c)) := by
  have hinv : Inv c :=
    run_invariant_along (fun _ _ _ hinv hcare hstep => Inv.step hinv hcare hstep)
      (hstart.inv hwalked) hcare hrun
  refine ⟨hinv.sorted, ?_, hinv.safeRun⟩
  rw [clearLoop_eq c.scid c.gc hinv.nodup, Nat.zero_add]
  exact (take_countP hinv.sorted c.scid).1

def smallCollection (root two : List Val) : Collection where
  root := 1
  enums := []
  vtasks := []
  vals := fun t => if t = 1 then root else if t = 2 then two else []
  things := ⟨[1, 2, 3], by decide⟩
  gc := []
  sweep := {1, 2, 3}
  nextId := 4
  ccid := 5
  scid := 5

theorem start_smallCollection {root two : List Val} (hroot : ∀ x ∈ refsVec root, x ∈ [1, 2, 3])
    (htwo : ∀ x ∈ refsVec two, x ∈ [1, 2, 3]) : Start (smallCollection root two) where
  gc := rfl
  roots := by
    intro t ht
    simp only [roots, smallCollection, flatMap_nil, nil_append, mem_singleton] at ht
    rw [ht]
    exact mem_cons_self
  closed := by
    intro t _ x hx
    simp only [succ, smallCollection] at hx
    split_ifs at hx
    · exact hroot x hx
    · exact htwo x hx
    · exact absurd hx not_mem_nil
  sweep := by
    intro t
    simp [smallCollection, Imap.mem_def]
  fresh := by
    show ∀ t ∈ [1, 2, 3], t < 4
    decide

theorem reachable_two {root two : List Val} (h : 2 ∈ refsVec root) :
    Reachable (smallCollection root two) 2 :=
  ⟨1, mem_singleton_self 1, Relation.ReflTransGen.single h⟩

/-- The root refers to a thing by an anonymous wrap, or in a list without the flag: it is
moved to the queue. A thing is taken back which refers to itself and to another thing: the
next run destroys the other one. -/
theorem collectGarbage_not_safe :
    (∀ root ∈ [Val.wano [] 2, Val.arr ⟨false, false, false⟩ [.thing 2]],
      Start (smallCollection [root] []) ∧ Reachable (smallCollection [root] []) 2 ∧
        2 ∈ (smallCollection [root] []).things ∧
        ∃ e ∈ (collectGarbage (smallCollection [root] [])).gc, e.thing = 2) ∧
      Start (smallCollection [] [.thing 2, .thing 3]) ∧
        ∃ c, run step (smallCollection [] [.thing 2, .thing 3]) [.gc, .find 2] = some c ∧
          ¬SafeRun c (collectGarbage c) := by
  refine ⟨?_, start_smallCollection (by decide) (by decide), _, rfl, ?_⟩
  · intro root hroot
    rcases List.mem_pair.mp hroot with rfl | rfl
    · exact ⟨start_smallCollection (by decide) (by decide), reachable_two (by decide),
        by decide, by decide⟩
    · exact ⟨start_smallCollection (by decide) (by decide), reachable_two (by decide),
        by decide, by decide⟩
  · intro hsafe
    exact hsafe.survivors 2 (by decide) 3 (by decide) (by decide)

theorem collectGarbage_safe_thing :
    ∃ c, run step (smallCollection [.thing 2] []) [.gc, .store 6] = some c ∧
      SafeRun c (collectGarbage c) := by
  have hstart : Start (smallCollection [.thing 2] []) :=
    start_smallCollection (by decide) (by decide)
  have hwalked : AllWalked (smallCollection [.thing 2] []) := by
    constructor
    · show ∀ t ∈ [1, 2, 3], ∀ v ∈ (smallCollection [.thing 2] []).vals t, Walked v
      decide
    · simp [smallCollection]
  have hgc : Careful (smallCollection [.thing 2] []) .gc := by
    rintro t - ⟨e, he, -⟩
    exact absurd he List.not_mem_nil
  have hnone : ∀ t ∈ (collectGarbage (smallCollection [.thing 2] [])).things.things,
      ∀ e ∈ (collectGarbage (smallCollection [.thing 2] [])).gc,
        e.thing ∉ succ (collectGarbage (smallCollection [.thing 2] [])) t := by
    decide
  have hcare : Along step Careful (smallCollection [.thing 2] []) [.gc, .store 6] :=
    ⟨hgc, fun _ _ => ⟨trivial, fun _ _ => trivial⟩⟩
  refine ⟨_, rfl, (collectGarbage_safe hstart hwalked rfl hcare).2.2 ?_⟩
  rintro t ht ⟨e, he, hsucc⟩
  exact absurd hsucc (hnone t ht e he)

end ThingsDB.Gc
