import ThingsDB.Lib.Transition
import ThingsDB.Types.Direct
import ThingsDB.Types.Lookup

/-!
# Direct dependencies have no cycle

A declaration with a direct dependency is checked first, so that the relation stays without
cycles, and with it the check itself and the default values of the types come to an end. The
check is not made for the type itself if it is wrap-only.
-/

namespace ThingsDB.Types

open Util Descent Transition Relation List

variable {L : Lang} {reserved : Text → Bool} {fuel : ℕ} {s : Schema} {t : TypeRec} {id : TypeId}
  {f : TypeRec → TypeRec}

structure Schema.Sound (s : Schema) : Prop where
  distinct : s.Distinct
  acyclic : Acyclic (Step s.directsOf)

variable {name : Text} {c : Counts} {g : Field} {props : Props} {D : Decl} {instances : Bool}
  {i : ℕ} {d : TypeId} {arg : WrapArg}

section Sound

theorem Schema.directsOf_of_byId (h : s.byId id = some t) : s.directsOf id = t.directs := by
  rw [Schema.directsOf, h]
  rfl

/-- A type from which another one is not reached. -/
def Schema.Above (s : Schema) (t : TypeRec) (d : TypeId) : Prop :=
  ¬ReflTransGen (Step s.directsOf) d t.id

/-- The fields which a type has already do not matter for the check of the next one. -/
theorem Schema.depCheck_update (hid : ∀ u, (f u).id = u.id) (hd : d ≠ id) :
    (s.update id f).depCheck (some id) fuel d = s.depCheck (some id) fuel d := by
  refine search_congr (fun u hu => ?_) (by simpa using hd.symm)
  rw [Schema.directsOf, Schema.byId_update hid, if_neg (by simpa [eq_comm] using hu)]
  rfl

section

variable (hs : s.Sound)

include hs

/-- What is checked does not lead back. -/
theorem above_of_checked (ht : s.byId t.id = some t)
    (h : Checked (s.env L fuel) t.ctx d) : s.Above t d := by
  obtain ⟨hcheck, word, hword, hname⟩ := h
  obtain ⟨u, hu, rfl⟩ := Option.map_eq_some_iff.mp hname
  intro hpath
  rcases reflTransGen_iff_eq_or_transGen.mp hpath with heq | hpath
  · have hbyId := hs.distinct.byId_of_byName hu
    rw [← heq, ht] at hbyId
    rw [← Schema.name_of_byName hu, ← Option.some.inj hbyId] at hword
    exact hword rfl
  · simpa [TypeRec.ctx] using not_mem_of_search hcheck hpath

theorem Schema.Sound.update (hid : ∀ u, (f u).id = u.id)
    (ht : s.byId t.id = some t) (hnew : ∀ d ∈ (f t).directs, d ∈ t.directs ∨ s.Above t d) :
    (s.update t.id f).Sound where
  distinct := hs.distinct.update hid
  acyclic := by
    apply hs.acyclic.insert _ fun d hd => hd
    · exact t.id
    intro u v huv
    rw [Step, Schema.directsOf, Schema.byId_update hid] at huv
    split_ifs at huv with hu
    · subst hu
      rw [ht] at huv
      rcases hnew v huv with hold | habove
      · exact Or.inl (by rwa [Step, Schema.directsOf_of_byId ht])
      · exact Or.inr ⟨rfl, habove⟩
    · exact Or.inl huv

theorem Schema.Sound.mono {s' : Schema} (hd : s'.Distinct)
    (hle : ∀ u d, d ∈ s'.directsOf u → d ∈ s.directsOf u) : s'.Sound :=
  ⟨hd, hs.acyclic.mono hle⟩

theorem Schema.Sound.update_same
    (hdirects : ∀ u, (f u).directs = u.directs := by exact fun _ => rfl)
    (hid : ∀ u, (f u).id = u.id := by exact fun _ => rfl) : (s.update id f).Sound := by
  apply hs.mono (hs.distinct.update hid)
  intro u d hd
  rw [Schema.directsOf, Schema.byId_update hid] at hd
  split_ifs at hd
  · cases hu : s.byId u with
    | none => simp [hu] at hd
    | some v =>
      rw [hu] at hd
      simpa [Schema.directsOf, hu, hdirects] using hd
  · exact hd

theorem Schema.Sound.put {fields : List Field} (ht : s.byId t.id = some t)
    (hnew : ∀ g ∈ fields, g ∈ t.fields ∨ ∀ d, g.spec.direct? = some d → s.Above t d) :
    (s.put t c fields).Sound := by
  have hupdate : (s.update t.id fun t =>
      { t with deps := c.deps, selfref := c.selfref, fields := fields }).Sound := by
    refine hs.update ?_ ht fun d hd => ?_
    · exact fun _ => rfl
    obtain ⟨g, hg, hdirect⟩ := mem_filterMap.mp hd
    rcases hnew g hg with hold | habove
    · exact Or.inl (mem_filterMap.mpr ⟨g, hold, hdirect⟩)
    · exact Or.inr (habove d hdirect)
  exact ⟨hupdate.distinct, hupdate.acyclic⟩

theorem Schema.Sound.drop (id : TypeId) : (s.drop id).Sound := by
  apply hs.mono (hs.distinct.drop id)
  intro u d hd
  rw [Schema.directsOf, Schema.byId_drop] at hd
  split_ifs at hd
  · cases hd
  · exact hd

theorem Schema.Sound.create (hid : s.byId id = none) : (s.create id name).Sound := by
  apply hs.mono (hs.distinct.create hid)
  intro u d hd
  rw [Schema.directsOf, Schema.byId_create hid] at hd
  split_ifs at hd
  · cases hd
  · exact hd

end

theorem card_typeId : Nat.card TypeId = 0x4000 := by
  rw [Nat.card_eq_fintype_card]
  exact Fintype.card_fin _

theorem Schema.Sound.depCheck_ne_none (hs : s.Sound) (hfuel : 0x4000 ≤ fuel)
    (type : Option TypeId) (d : TypeId) : (s.env L fuel).depCheck type d ≠ none := by
  obtain ⟨b, hb⟩ := hs.acyclic.search_returns (fun d => type = some d)
    (card_typeId.trans_le hfuel) d
  intro hnone
  exact Option.some_ne_none b (hb.symm.trans hnone)

end Sound

section Calls

/-- What a call leaves: the types, and an error which is not the one of a check which does
not return. -/
structure Fine (r : Schema × Option CallError) : Prop where
  sound : r.1.Sound
  returns : r.2 ≠ some (.decl .diverges)

theorem above_of_initDecl (hs : s.Sound) (ht : s.byId t.id = some t)
    (hno : noSelf t.wrapOnly t.name D) (h : (initDecl (s.env L fuel) t.ctx name c D).2 = .ok g)
    (hd : g.spec.direct? = some d) : s.Above t d :=
  above_of_checked hs ht (initDecl_direct rfl hno h hd)

section

variable (hfuel : 0x4000 ≤ fuel) (hs : s.Sound)

include hfuel hs

theorem fine_initFromThing
    (ht : s.byId t.id = some t) (hno : ∀ p ∈ props.toList, noSelf t.wrapOnly t.name p.2) :
    (s.initFromThing L fuel t props).1.Sound ∧
      (s.initFromThing L fuel t props).2 ≠ some .diverges := by
  have hreturns : (initProps (s.env L fuel) t.ctx (t.build s.refcount) props).2 ≠ some .diverges :=
    initProps_ne_diverges (hs.depCheck_ne_none hfuel) props
  have hmade : ∀ g ∈ (initProps (s.env L fuel) t.ctx (t.build s.refcount) props).1.fields,
      g ∈ t.fields ∨ ∀ d, g.spec.direct? = some d → s.Above t d := by
    intro g hg
    rcases mem_initProps hg with hold | ⟨p, hp, c, hok⟩
    · exact Or.inl hold
    · exact Or.inr fun d hd => above_of_initDecl hs ht (hno p hp) hok hd
  unfold Schema.initFromThing
  simp only
  split
  · constructor
    · exact (hs.put ht hmade).update_same
    · simp
  · next e he =>
    constructor
    · refine (hs.put ht ?_).update_same
      exact fun g hg => absurd hg not_mem_nil
    · rw [he] at hreturns
      exact hreturns

theorem fine_setFields {isNew : Bool} (ht : s.byId id = some t)
    (hno : ∀ p ∈ props.toList, noSelf (arg.mode isNew t.wrapOnly) t.name p.2) :
    Fine (s.setFields L fuel id props arg isNew instances) := by
  unfold Schema.setFields
  split_ifs
  · exact ⟨hs, by simp⟩
  · exact ⟨hs, by simp⟩
  · have hmode : (s.update id fun t => t.withMode (arg.mode isNew t.wrapOnly)).Sound :=
      hs.update_same
    have hbyId := Schema.byId_withMode arg isNew ht
    obtain rfl : t.id = id := Schema.id_of_byId ht
    have hinit := fine_initFromThing (L := L) (t := t.withMode (arg.mode isNew t.wrapOnly)) hfuel
      hmode hbyId hno
    simp only [hbyId]
    split
    · next heq =>
      rw [heq] at hinit
      exact ⟨hinit.1, by simp⟩
    · next heq =>
      rw [heq] at hinit
      exact ⟨hinit.1, by simpa using hinit.2⟩

theorem fine_setType (hno : ∀ p ∈ props.toList, noSelf (s.modeFor name arg) name p.2) :
    Fine (s.setType L reserved fuel name props arg instances) := by
  unfold Schema.setType
  cases hname : s.byName name with
  | some t =>
    simp only
    split_ifs
    · exact ⟨hs, by simp⟩
    · apply fine_setFields hfuel hs (hs.distinct.byId_of_byName hname)
      simpa [Schema.modeFor, hname, Schema.name_of_byName hname] using hno
  | none =>
    simp only
    split_ifs
    · exact ⟨hs, by simp⟩
    · exact ⟨hs, by simp⟩
    · exact ⟨hs, by simp⟩
    cases hid : s.newId name with
    | none => exact ⟨hs, by simp⟩
    | some id =>
      simp only
      split_ifs with hused
      · exact ⟨hs, by simp⟩
      · have hfree : s.byId id = none := by simpa using hused
        have hbyId : (s.create id name).byId id = some (.new id name) := by
          rw [Schema.byId_create hfree, if_pos rfl]
        have hfine : Fine ((s.create id name).setFields L fuel id props arg true instances) := by
          apply fine_setFields hfuel (hs.create hfree) hbyId
          simpa [Schema.modeFor, hname, TypeRec.new] using hno
        split
        · next heq =>
          rw [heq] at hfine
          exact ⟨hfine.sound, by simp⟩
        · next heq =>
          rw [heq] at hfine
          exact ⟨hfine.sound.drop id, hfine.returns⟩

end

theorem fine_delType (hs : s.Sound) : Fine (s.delType name) := by
  unfold Schema.delType
  split
  · exact ⟨hs, by simp⟩
  · split_ifs
    · exact ⟨hs, by simp⟩
    · exact ⟨hs.drop _, by simp⟩

theorem Schema.Sound.put_same (hs : s.Sound) (ht : s.byId t.id = some t) :
    (s.put t c t.fields).Sound :=
  hs.put ht fun _ hg => Or.inl hg

theorem fine_modAdd {assignable : Bool} (hfuel : 0x4000 ≤ fuel)
    (hs : s.Sound) (ht : s.byId t.id = some t) (hno : noSelf t.wrapOnly t.name D) :
    Fine (s.modAdd L fuel t name D assignable) := by
  unfold Schema.modAdd
  split
  · exact ⟨hs, by simp⟩
  generalize hinit : initDecl (s.env L fuel) t.ctx name (t.counts s.refcount) D = init
  have hreturns : (assign t.ctx (t.build s.refcount) name D init).2 ≠ some .diverges :=
    assign_ne_diverges (hinit ▸ initDecl_ne_diverges (hs.depCheck_ne_none hfuel) D)
  have hmade : ∀ g ∈ (assign t.ctx (t.build s.refcount) name D init).1.fields,
      g ∈ t.fields ∨ ∀ d, g.spec.direct? = some d → s.Above t d := by
    intro g hg
    rcases mem_assign hg with hold | hok
    · exact Or.inl hold
    · exact Or.inr fun d hd => above_of_initDecl hs ht hno (hinit ▸ hok) hd
  simp only
  split
  · next e he =>
    exact ⟨hs.put_same ht, by simpa [he] using hreturns⟩
  · split
    · split_ifs
      · exact ⟨hs.put ht hmade, by simp⟩
      · exact ⟨hs.put_same ht, by simp⟩
    · exact ⟨hs.update_same, by simp⟩

theorem Schema.Sound.put_set (hs : s.Sound) (ht : s.byId t.id = some t)
    (hg : ∀ d, g.spec.direct? = some d → s.Above t d) : (s.put t c (t.fields.set i g)).Sound := by
  apply hs.put ht
  intro h hh
  rcases mem_or_eq_of_mem_set hh with hold | rfl
  · exact Or.inl hold
  · exact Or.inr hg

theorem fine_fieldMod {compatible : Bool} (hfuel : 0x4000 ≤ fuel)
    (hs : s.Sound) (ht : s.byId t.id = some t) (hno : noSelf t.wrapOnly t.name D) :
    Fine (s.fieldMod L fuel t i g D compatible) := by
  have hreturns : (initDecl (s.env L fuel) t.ctx g.name
      ((t.counts s.refcount).removeDep (some t.id) g) D).2 ≠ .error .diverges :=
    initDecl_ne_diverges (hs.depCheck_ne_none hfuel) D
  unfold Schema.fieldMod
  simp only
  split
  · next heq =>
    rw [heq] at hreturns
    exact ⟨hs.put_same ht, by simpa using hreturns⟩
  · next heq =>
    split_ifs
    · exact ⟨hs.put_set ht fun d hd =>
        above_of_initDecl hs ht hno (congrArg Prod.snd heq) hd, by simp⟩
    · exact ⟨hs.put_same ht, by simp⟩

theorem fine_fieldModCallback {text : Text} (hfuel : 0x4000 ≤ fuel)
    (hs : s.Sound) (ht : s.byId t.id = some t) (hwpo : t.wrapOnly = false) :
    Fine (s.fieldModCallback L fuel t i g text) := by
  have hreturns : (initDecl (s.env L fuel) t.ctx g.name (t.counts s.refcount) (.str text)).2 ≠
      .error .diverges := initDecl_ne_diverges (hs.depCheck_ne_none hfuel) _
  unfold Schema.fieldModCallback
  split
  · next heq =>
    rw [heq] at hreturns
    exact ⟨hs.put_same ht, by simpa using hreturns⟩
  · next heq =>
    have hno : noSelf t.wrapOnly t.name (.str text) = true := by simp [noSelf, hwpo]
    exact ⟨hs.put_set ht fun d hd =>
      above_of_initDecl hs ht hno (congrArg Prod.snd heq) hd, by simp⟩

theorem fine_modDel (hs : s.Sound) (ht : s.byId t.id = some t) : Fine (s.modDel t name) := by
  unfold Schema.modDel
  split
  · exact ⟨hs.update_same, by simp⟩
  · split
    · next i g hfield =>
      refine ⟨hs.put ht fun h hh => Or.inl ?_, by simp⟩
      have hperm := vecSwapRemove_perm _ _ (TypeRec.lt_of_field? hfield)
      exact mem_of_mem_eraseIdx (hperm.mem_iff.mp hh)
    · split_ifs
      · exact ⟨hs.update_same, by simp⟩
      · exact ⟨hs, by simp⟩

theorem directs_rename :
    ({ t with fields := t.fields.modify i (Field.rename name) } : TypeRec).directs = t.directs := by
  have hspec : ∀ g : Field, (g.rename name).spec = g.spec := fun g => by cases g <;> rfl
  unfold TypeRec.directs
  generalize t.fields = fields
  induction fields generalizing i with
  | nil => simp
  | cons g fields ih =>
    cases i with
    | zero => simp [hspec, filterMap_cons]
    | succ i => simp only [modify_succ_cons, filterMap_cons, ih]

theorem fine_modRen {newName : Text} (hs : s.Sound) : Fine (s.modRen t name newName) := by
  unfold Schema.modRen
  split
  · exact ⟨hs, by simp⟩
  split
  · exact ⟨hs, by simp⟩
  split
  · exact ⟨hs, by simp⟩
  split
  · exact ⟨hs, by simp⟩
  split
  · exact ⟨hs.update_same fun _ => directs_rename, by simp⟩
  · split
    · exact ⟨hs.update_same, by simp⟩
    · exact ⟨hs.update_same, by simp⟩

theorem fine_modWpo {wpo : Bool} (hs : s.Sound) : Fine (s.modWpo t wpo instances) := by
  unfold Schema.modWpo
  split
  · exact ⟨hs, by simp⟩
  split
  · exact ⟨hs, by simp⟩
  split
  · exact ⟨hs, by simp⟩
  split
  · exact ⟨hs, by simp⟩
  · exact ⟨hs.update_same, by simp⟩

/-- No declaration which is offered to a wrap-only type names the type itself directly. The
mode is the one which the call gives to the type. -/
def Schema.NoSelfCall (s : Schema) : Call → Prop
  | .setType name props arg _ => ∀ p ∈ props.toList, noSelf (s.modeFor name arg) name p.2 = true
  | .modType name (.add _ D _) | .modType name (.mod _ D _) =>
    noSelf ((s.byName name).any TypeRec.wrapOnly) name D = true
  | _ => True

instance (s : Schema) (c : Call) : Decidable (s.NoSelfCall c) :=
  match c with
  | .setType name props arg _ => inferInstanceAs (Decidable (∀ p ∈ props.toList,
      noSelf (s.modeFor name arg) name p.2 = true))
  | .modType _ (.add _ _ _) | .modType _ (.mod _ _ _) => inferInstanceAs (Decidable (_ = true))
  | .modType _ (.modCallback _ _) | .modType _ (.del _) | .modType _ (.ren _ _)
  | .modType _ (.wpo _ _) | .delType _ => inferInstanceAs (Decidable True)

theorem modDeclErr_ne_diverges : modDeclErr t D ≠ some (.decl .diverges) := by
  unfold modDeclErr
  split
  · split_ifs <;> simp
  · simp
  · simp
  · split_ifs <;> simp
  · split_ifs <;> simp
  · simp
  · simp

theorem fine_methodMod (hs : s.Sound) : Fine (s.methodMod t name D) := by
  unfold Schema.methodMod
  split_ifs
  · exact ⟨hs, by simp⟩
  · exact ⟨hs, by simp⟩
  split
  · exact ⟨hs.update_same, by simp⟩
  · exact ⟨hs, by simp⟩
  · refine ⟨hs, fun he => ?_⟩
    rcases Option.getD_eq_iff.mp (Option.some.inj he) with he | ⟨-, he⟩
    · exact modDeclErr_ne_diverges he
    · cases he

theorem fine_modType {mod : Mod} (hfuel : 0x4000 ≤ fuel) (hs : s.Sound)
    (hname : s.byName name = some t) (hno : s.NoSelfCall (.modType name mod)) :
    Fine (s.modType L fuel t mod) := by
  have ht := hs.distinct.byId_of_byName hname
  cases mod with
  | add prop D assignable =>
    apply fine_modAdd hfuel hs ht
    simpa [Schema.NoSelfCall, hname, Schema.name_of_byName hname] using hno
  | mod prop D compatible =>
    unfold Schema.modType
    simp only
    split
    · exact fine_methodMod hs
    · next he _ =>
      refine ⟨hs, ?_⟩
      rintro ⟨⟩
      exact modDeclErr_ne_diverges he
    · apply fine_fieldMod hfuel hs ht
      simpa [Schema.NoSelfCall, hname, Schema.name_of_byName hname] using hno
  | modCallback prop text =>
    unfold Schema.modType
    simp only
    split
    · exact fine_methodMod hs
    · split_ifs with hrefused
      · exact ⟨hs, by simp⟩
      · apply fine_fieldModCallback hfuel hs ht
        simpa using (not_or.mp hrefused).1
  | del prop => exact fine_modDel hs ht
  | ren prop newProp => exact fine_modRen hs
  | wpo wpo instances => exact fine_modWpo hs

theorem fine_call {c : Call} (hfuel : 0x4000 ≤ fuel) (hs : s.Sound) (hno : s.NoSelfCall c) :
    Fine (s.call L reserved fuel c) := by
  cases c with
  | setType name props arg instances => exact fine_setType hfuel hs hno
  | modType name mod =>
    unfold Schema.call
    simp only
    split
    · exact ⟨hs, by simp⟩
    · next hname => exact fine_modType hfuel hs hname hno
  | delType name => exact fine_delType hs

end Calls

section Run

/-- The dependencies between types which are not wrap-only. -/
def Schema.PlainStep (s : Schema) (id d : TypeId) : Prop :=
  d ∈ s.directsOf id ∧ (s.byId id).any (fun t => !t.wrapOnly) ∧ (s.byId d).any fun t => !t.wrapOnly

/-- The functions which follow direct dependencies come to an end. -/
structure Schema.Terminating (s : Schema) (fuel : ℕ) : Prop where
  depCheck : ∀ type d, ∃ b, s.depCheck type fuel d = some b
  acyclic : Acyclic s.PlainStep
  dval : ∀ id, ∃ n, s.dval fuel id = some n

theorem Schema.Sound.terminating (hs : s.Sound) (hfuel : 0x4000 ≤ fuel) : s.Terminating fuel where
  depCheck _ d := hs.acyclic.search_returns _ (card_typeId.trans_le hfuel) d
  acyclic := hs.acyclic.mono fun _ _ h => h.1
  dval id := hs.acyclic.size_returns (card_typeId.trans_le hfuel) id

theorem Schema.sound_of_types_nil (h : s.types = []) : s.Sound where
  distinct := by simp [Schema.Distinct, h]
  acyclic := by
    have hnone : ∀ u v, ¬Step s.directsOf u v := by
      intro u v huv
      simp [Step, Schema.directsOf, Schema.byId, h] at huv
    intro u hu
    obtain ⟨v, huv, -⟩ := TransGen.head'_iff.mp hu
    exact hnone u v huv

/-- As long as no wrap-only type is offered a declaration which names the type itself
directly, the check for circular dependencies returns for every declaration which is offered,
the direct dependencies have no cycle, and default values come to an end. -/
theorem calls_terminating {calls : List Call} {s' : Schema} (hfuel : 0x4000 ≤ fuel)
    (hempty : s.types = [])
    (hno : Along (Schema.step L reserved fuel) Schema.NoSelfCall s calls)
    (hrun : run (Schema.step L reserved fuel) s calls = some s') :
    s'.Terminating fuel ∧
      ∀ c, s'.NoSelfCall c → (s'.call L reserved fuel c).2 ≠ some (.decl .diverges) := by
  have hsound : s'.Sound := by
    refine run_invariant_along (P := Schema.Sound) ?_ (Schema.sound_of_types_nil hempty) hno hrun
    intro s c t hs hc hstep
    exact Option.some.inj hstep ▸ (fine_call hfuel hs hc).sound
  exact ⟨hsound.terminating hfuel, fun c hc => (fine_call hfuel hsound hc).returns⟩

/-- `set_type('W', {w: 'W'}, true)` and `set_type('X', {})`. -/
def selfCalls : List Call :=
  [.setType ['W'] (.cons ['w'] (.str ['W']) .nil) (.bool true) false,
    .setType ['X'] .nil .absent false]

/-- The direct name of another type for which the check does not return. -/
theorem initDecl_diverges {E : Env} {x : Ctx} (hx : x.name = ['X'])
    (htype : E.typeByName ['W'] = some d) (hcheck : E.depCheck x.self d = none) :
    initDecl E x name c (.str ['W']) = (c, .error .diverges) := by
  have hword : initText E x c ['W'] =
      initName E x c ['W'] ⟨[.deep], false, .plain, false, ['W']⟩ := by
    obtain ⟨self, _, wrapOnly⟩ := x
    cases hx
    rfl
  rw [initDecl, hword]
  simp [initName, htype, depErr, hcheck, Scan.isDirect]

/-- A wrap-only type which names itself directly is accepted. After this the check for
`mod_type('X', 'add', 'w', 'W')` does not return, whatever the depth of the recursion. -/
theorem check_diverges : ∃ s', run (Schema.step noLang (fun _ => false) 0x4000) .empty selfCalls =
      some s' ∧ ∀ fuel, s'.depCheck (some 1) fuel 0 = none ∧
        (s'.call noLang (fun _ => false) fuel (.modType ['X'] (.add ['w'] (.str ['W']) true))).2 =
          some (.decl .diverges) := by
  obtain ⟨s', hrun⟩ : ∃ s', run (Schema.step noLang (fun _ => false) 0x4000) .empty selfCalls =
    some s' := ⟨_, rfl⟩
  have hW : (run (Schema.step noLang (fun _ => false) 0x4000) .empty selfCalls).map
      (fun s => (s.directsOf 0, (s.byName ['W']).map TypeRec.id)) = some ([0], some 0) := by decide
  have hX : (run (Schema.step noLang (fun _ => false) 0x4000) .empty selfCalls).map
      (fun s => (s.byName ['X']).map fun t => (t.id, t.name, t.known ['w'])) =
      some (some (1, ['X'], false)) := by decide
  rw [hrun] at hW hX
  simp only [Option.map_some, Option.some.injEq, Prod.mk.injEq] at hW
  obtain ⟨t, ht, hX⟩ := Option.map_eq_some_iff.mp (Option.some.inj hX)
  simp only [Prod.mk.injEq] at hX
  obtain ⟨hid, hname, hknown⟩ := hX
  refine ⟨s', hrun, fun fuel => ?_⟩
  have hcheck : s'.depCheck (some 1) fuel 0 = none := search_eq_none hW.1 (by decide) fuel
  refine ⟨hcheck, ?_⟩
  have hinit : ∀ c, initDecl (s'.env noLang fuel) t.ctx ['w'] c (.str ['W']) =
      (c, .error .diverges) := by
    intro c
    apply initDecl_diverges hname hW.2
    rw [← hcheck, ← hid]
    rfl
  simp only [Schema.call, ht, Schema.modType, Schema.modAdd, hknown, hinit]
  simp [assign, create, isClosureText]

def chainCalls : List Call :=
  [.setType ['A'] .nil .absent false,
    .setType ['B'] (.cons ['a'] (.str ['A']) .nil) .absent false,
    .setType ['W'] (.cons ['w'] (.str ['W', '?']) (.cons ['b'] (.str ['B']) .nil))
      (.bool true) false,
    .modType ['A'] (.add ['b'] (.str ['B']) true)]

theorem calls_terminating_chain :
    ∃ s', run (Schema.step noLang (fun _ => false) 0x4000) .empty chainCalls = some s' ∧
      s'.Terminating 0x4000 ∧ ∀ c, s'.NoSelfCall c →
        (s'.call noLang (fun _ => false) 0x4000 c).2 ≠ some (.decl .diverges) := by
  obtain ⟨s', hrun⟩ : ∃ s', run (Schema.step noLang (fun _ => false) 0x4000) .empty chainCalls =
    some s' := ⟨_, rfl⟩
  refine ⟨s', hrun, calls_terminating le_rfl rfl ?_ hrun⟩
  refine ⟨by decide, fun _ h₁ => ?_⟩
  cases h₁
  refine ⟨by decide, fun _ h₂ => ?_⟩
  cases h₂
  refine ⟨by decide, fun _ h₃ => ?_⟩
  cases h₃
  exact ⟨by decide, fun _ _ => trivial⟩

end Run

end ThingsDB.Types
