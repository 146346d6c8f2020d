import ThingsDB.Types.Renamed

/-!
# Declarations of a collection after a rename

After `rename_type` and `rename_enum`, the names of the types and enumerators are the same up
to one swap of two names.
-/

namespace ThingsDB.Types

open List

variable {s s' : Schema} {tgt : Target} {old nname w : Text} {L : Lang} {fuel : ℕ}

def Schema.names (s : Schema) : List Text := s.types.map TypeRec.name ++ s.enums.map EnumRec.name

/-- The ids and names are distinct, and the names are allowed. -/
structure Schema.WellNamed (s : Schema) : Prop where
  ids : s.Distinct
  enumIds : (s.enums.map EnumRec.id).Nodup
  names : s.names.Nodup
  allowed : ∀ w ∈ s.names, isName w = true ∧ isReserved w = false

/-- The words which are builtin are reserved, if they are names. -/
theorem freeName_of_not_reserved (h : isName w) (hw : isReserved w = false) : FreeName w := by
  refine ⟨h, ?_⟩
  have hwords : ∀ p ∈ fieldMapping, isReserved p.1 = true ∨ p.1.head? = some '[' ∨
    p.1.head? = some '{' := by decide
  rw [fieldMap, lookup_eq_none_iff]
  intro p hp
  simp only [bne_iff_ne, ne_eq]
  rintro rfl
  rcases hwords p hp with hres | hhead | hhead
  · rw [hw] at hres
    cases hres
  · exact not_mem_of_isName h rfl (List.mem_of_head? hhead)
  · exact not_mem_of_isName h rfl (List.mem_of_head? hhead)

variable {t : TypeRec} {e : EnumRec}

section Lookup

theorem Schema.typeByName_eq {i : TypeId} (h : (s.env L fuel).typeByName w = some i) :
    ∃ t ∈ s.types, t.name = w ∧ t.id = i := by
  obtain ⟨t, ht, hid⟩ := Option.map_eq_some_iff.mp h
  exact ⟨t, Schema.mem_of_byName ht, Schema.name_of_byName ht, hid⟩

theorem Schema.enumByName_eq {i : EnumId} (h : (s.env L fuel).enumByName w = some i) :
    ∃ e ∈ s.enums, e.name = w ∧ e.id = i := by
  obtain ⟨e, he, hid⟩ := Option.map_eq_some_iff.mp h
  exact ⟨e, mem_of_find?_eq_some he, by simpa using find?_some he, hid⟩

theorem Schema.mem_names (h : (s.env L fuel).Knows w) : w ∈ s.names := by
  rcases h with h | h
  · obtain ⟨i, hi⟩ := Option.ne_none_iff_exists'.mp h
    obtain ⟨t, ht, hname, -⟩ := Schema.typeByName_eq hi
    exact mem_append_left _ (mem_map.mpr ⟨t, ht, hname⟩)
  · obtain ⟨i, hi⟩ := Option.ne_none_iff_exists'.mp h
    obtain ⟨e, he, hname, -⟩ := Schema.enumByName_eq hi
    exact mem_append_right _ (mem_map.mpr ⟨e, he, hname⟩)

/-- The type or enumerator with a name. -/
structure Schema.Has (s : Schema) (tgt : Target) (old : Text) : Prop where
  type : ∀ t ∈ s.types, tgt = .type t.id ↔ t.name = old
  enum : ∀ e ∈ s.enums, tgt = .enum e.id ↔ e.name = old
  known : ∀ i, tgt = .type i → (s.byName old).map TypeRec.id = some i

theorem Schema.WellNamed.has_type (hs : s.WellNamed) (ht : s.byName old = some t) :
    s.Has (.type t.id) old := by
  have hmem := Schema.mem_of_byName ht
  have hname := Schema.name_of_byName ht
  obtain ⟨hnodup, -, hdisjoint⟩ := nodup_append.mp hs.names
  constructor
  case type =>
    intro u hu
    constructor
    · intro heq
      rw [← inj_on_of_nodup_map hs.ids hmem hu (Target.type.inj heq)]
      exact hname
    · intro heq
      rw [inj_on_of_nodup_map hnodup hu hmem (heq.trans hname.symm)]
  case enum =>
    intro e he
    refine ⟨fun heq => (Target.noConfusion heq), fun heq => ?_⟩
    exact absurd (hname.trans heq.symm)
      (hdisjoint _ (mem_map_of_mem hmem) _ (mem_map_of_mem he))
  case known =>
    intro i hi
    cases hi
    rw [ht]
    rfl

theorem Schema.WellNamed.has_enum (hs : s.WellNamed) (he : s.enumByName old = some e) :
    s.Has (.enum e.id) old := by
  have hmem : e ∈ s.enums := mem_of_find?_eq_some he
  have hname : e.name = old := by simpa using find?_some he
  obtain ⟨-, hnodup, hdisjoint⟩ := nodup_append.mp hs.names
  constructor
  case type =>
    intro t ht
    refine ⟨fun heq => (Target.noConfusion heq), fun heq => ?_⟩
    exact absurd (heq.trans hname.symm)
      (hdisjoint _ (mem_map_of_mem ht) _ (mem_map_of_mem hmem))
  case enum =>
    intro u hu
    constructor
    · intro heq
      rw [← inj_on_of_nodup_map hs.enumIds hmem hu (Target.enum.inj heq)]
      exact hname
    · intro heq
      rw [inj_on_of_nodup_map hnodup hu hmem (heq.trans hname.symm)]
  case known => exact fun i hi => Target.noConfusion hi

theorem Schema.not_mem_names (ht : s.byName w = none) (he : s.enumByName w = none) :
    w ∉ s.names := by
  intro hmem
  rcases mem_append.mp hmem with hmem | hmem
  · obtain ⟨t, htmem, hname⟩ := mem_map.mp hmem
    simpa [hname] using find?_eq_none.mp ht t htmem
  · obtain ⟨e, hemem, hname⟩ := mem_map.mp hmem
    simpa [hname] using find?_eq_none.mp he e hemem

end Lookup

section Env

variable (hs : s.Has tgt old) (hnew : nname ∉ s.names)

include hs hnew

theorem Schema.ren_type (ht : t ∈ s.types) :
    (t.ren tgt nname).name = Equiv.swap old nname t.name := by
  have hne : t.name ≠ nname := by
    rintro rfl
    exact hnew (mem_append_left _ (mem_map_of_mem ht))
  rw [Equiv.swap_apply_def, if_neg hne, TypeRec.ren]
  simp only [hs.type t ht]

theorem Schema.ren_enum (he : e ∈ s.enums) :
    (e.ren tgt nname).name = Equiv.swap old nname e.name := by
  have hne : e.name ≠ nname := by
    rintro rfl
    exact hnew (mem_append_right _ (mem_map_of_mem he))
  rw [Equiv.swap_apply_def, if_neg hne, EnumRec.ren]
  simp only [hs.enum e he]

theorem Schema.byName_ren (w : Text) :
    (s.ren tgt nname).byName w =
      (s.byName (Equiv.swap old nname w)).map (TypeRec.ren tgt nname) := by
  unfold Schema.byName Schema.ren
  rw [find?_map]
  refine congrArg (Option.map _) (find?_congr fun t ht => ?_)
  simp only [Function.comp_apply, Schema.ren_type hs hnew ht, decide_eq_decide]
  exact Equiv.swap_apply_eq_iff

theorem Schema.enumByName_ren (w : Text) : (s.ren tgt nname).enumByName w =
    (s.enumByName (Equiv.swap old nname w)).map (EnumRec.ren tgt nname) := by
  unfold Schema.enumByName Schema.ren
  rw [find?_map]
  refine congrArg (Option.map _) (find?_congr fun e he => ?_)
  simp only [Function.comp_apply, Schema.ren_enum hs hnew he, decide_eq_decide]
  exact Equiv.swap_apply_eq_iff

omit hs hnew in
theorem Schema.byId_ren (i : TypeId) :
    (s.ren tgt nname).byId i = (s.byId i).map (TypeRec.ren tgt nname) := by
  unfold Schema.byId Schema.ren
  rw [find?_map]
  rfl

omit hs hnew in
theorem renamed_spec (f : Field) : (f.renamed tgt nname).spec = f.spec := by
  cases f with
  | leaf name text data =>
    unfold Field.renamed
    rw [Field.ren]
    cases renText tgt nname text data <;> rfl
  | nest name arr raw fields ano =>
    rw [renamed_nest]
    rfl

omit hs hnew in
theorem renamed_meaning (f : Field) : (f.renamed tgt nname).meaning = f.meaning := by
  refine Eq.trans ?_ (ren_meaning nname tgt f)
  cases f with
  | leaf name text data =>
    unfold Field.renamed
    rw [Field.ren]
    cases renText tgt nname text data <;> rfl
  | nest name arr raw fields ano =>
    rw [renamed_nest, Field.ren]
    rfl

omit hs hnew in
theorem Schema.directsOf_ren (i : TypeId) : (s.ren tgt nname).directsOf i = s.directsOf i := by
  unfold Schema.directsOf
  rw [Schema.byId_ren]
  cases s.byId i with
  | none => rfl
  | some t =>
    simp only [Option.map_some, Option.elim_some, TypeRec.directs, TypeRec.ren, filterMap_map]
    refine congrArg (filterMap · t.fields) (funext fun f => ?_)
    simp only [Function.comp_apply, renamed_spec]

theorem Schema.env_ren : (s.ren tgt nname).env L fuel = (s.env L fuel).ren old nname := by
  have hdirects : (s.ren tgt nname).directsOf = s.directsOf := funext Schema.directsOf_ren
  simp only [Schema.env, Env.ren, Env.mk.injEq]
  refine ⟨?_, ?_, ?_, ?_, ?_, trivial, trivial, trivial⟩
  · funext w
    rw [Schema.byName_ren hs hnew, Option.map_map]
    rfl
  · funext w
    rw [Schema.enumByName_ren hs hnew, Option.map_map]
    rfl
  · funext i member
    simp only [Schema.ren, find?_map, Option.any_map]
    rfl
  · funext i
    rw [Schema.byId_ren, Option.any_map]
    rfl
  · funext type dep
    rw [Schema.depCheck, Schema.depCheck, hdirects]

end Env

theorem Schema.WellNamed.renames (hs : s.WellNamed) (hhas : s.Has tgt old) (hnew : nname ∉ s.names)
    (hname : isName nname) (hfree : isReserved nname = false) :
    Renames (s.env L fuel) tgt old nname := by
  constructor
  case new => exact freeName_of_not_reserved hname hfree
  case fresh => exact fun h => hnew (Schema.mem_names h)
  case names =>
    intro w hw
    obtain ⟨hw, hres⟩ := hs.allowed w (Schema.mem_names hw)
    exact freeName_of_not_reserved hw hres
  case type =>
    intro w i hi
    obtain ⟨t, ht, rfl, rfl⟩ := Schema.typeByName_eq hi
    exact (hhas.type t ht).symm
  case enum =>
    intro w i hi
    obtain ⟨e, he, rfl, rfl⟩ := Schema.enumByName_eq hi
    exact (hhas.enum e he).symm
  case known => exact hhas.known

inductive Schema.Renamed (s : Schema) (oname nname : Text) : Target → Schema → Prop where
  | type {t : TypeRec} {s' : Schema} : s.byName oname = some t →
      s.renameType nname oname = (s', none) → Schema.Renamed s oname nname (.type t.id) s'
  | enum {e : EnumRec} {s' : Schema} : s.enumByName oname = some e →
      s.renameEnum nname oname = (s', none) → Schema.Renamed s oname nname (.enum e.id) s'

theorem Schema.newNameErr_none (h : s.newNameErr nname = none) :
    isName nname ∧ isReserved nname = false ∧ nname ∉ s.names := by
  unfold Schema.newNameErr at h
  split_ifs at h with hname hres htype henum
  refine ⟨by simpa using hname, by simpa using hres, Schema.not_mem_names ?_ ?_⟩
  · simpa using htype
  · simpa using henum

/-- A type is found by its name. -/
theorem Schema.WellNamed.byName_of_mem (hs : s.WellNamed) (ht : t ∈ s.types) :
    s.byName t.name = some t := by
  obtain ⟨hnodup, -⟩ := nodup_append.mp hs.names
  cases hfind : s.byName t.name with
  | none => simpa using find?_eq_none.mp hfind t ht
  | some u =>
    rw [inj_on_of_nodup_map hnodup (Schema.mem_of_byName hfind) ht
      (Schema.name_of_byName hfind)]

theorem Schema.Renamed.spec (L : Lang) (fuel : ℕ) (h : s.Renamed old nname tgt s')
    (hs : s.WellNamed) : s.Has tgt old ∧ s.newNameErr nname = none ∧
      s'.env L fuel = (s.ren tgt nname).env L fuel := by
  cases h with
  | @type t s' ht hren =>
    unfold Schema.renameType at hren
    rw [ht] at hren
    simp only at hren
    cases hnew : s.newNameErr nname with
    | some e =>
      rw [hnew] at hren
      cases hren
    | none =>
      rw [hnew] at hren
      simp only at hren
      refine ⟨hs.has_type ht, rfl, ?_⟩
      split at hren
      · cases hren
        rfl
      · cases hren
        rfl
  | @enum e s' he hren =>
    unfold Schema.renameEnum at hren
    rw [he] at hren
    simp only at hren
    cases hnew : s.newNameErr nname with
    | some e =>
      rw [hnew] at hren
      cases hren
    | none =>
      rw [hnew] at hren
      cases hren
      exact ⟨hs.has_enum he, rfl, rfl⟩

/-- After a rename, the declaration of a field is read with the same specifications, flags and
conditions as before, unless it is a nested structure which is damaged. -/
theorem rename_keeps_declaration (hs : s.WellNamed) (hren : s.Renamed old nname tgt s')
    {t : TypeRec} {f : Field} (ht : t ∈ s.types) {c : Counts}
    (hf : f.Reads (s.env L fuel) t.ctx c) :
    (∃ g, (initDecl (s'.env L fuel) (t.ren tgt nname).ctx f.name c
        (f.renamed tgt nname).declared).2 = .ok g ∧ g.meaning = f.meaning) ↔
          ¬f.Damaged (s.env L fuel) t.id tgt t.ctx := by
  obtain ⟨hhas, hnew, henv⟩ := hren.spec L fuel hs
  obtain ⟨hname, hfree, hfresh⟩ := Schema.newNameErr_none hnew
  have hR : Renames (s.env L fuel) tgt old nname := hs.renames hhas hfresh hname hfree
  have hx : t.ctx.On (s.env L fuel) t.id := by
    refine ⟨?_, Or.inl rfl⟩
    have hfind := hs.byName_of_mem ht
    exact congrArg (Option.map TypeRec.id) hfind
  have hctx : (t.ren tgt nname).ctx = t.ctx.ren old nname := by
    rw [TypeRec.ctx, Schema.ren_type hhas hfresh ht]
    rfl
  have hread := reread_renamed hR hx rfl hf
  rw [henv, Schema.env_ren hhas hfresh, hctx]
  generalize (initDecl ((s.env L fuel).ren old nname) (t.ctx.ren old nname) f.name c
    (f.renamed tgt nname).declared).2 = r at hread ⊢
  cases r with
  | error e =>
    have hdamaged : f.Damaged (s.env L fuel) t.id tgt t.ctx := hread
    simpa using hdamaged
  | ok g =>
    obtain ⟨hbare, hnot⟩ := hread
    exact ⟨fun _ => hnot, fun _ => ⟨g, rfl, (meaning_of_bare hbare).trans (renamed_meaning f)⟩⟩

section Example

/-- A leaf which names the first type, in brackets or not. -/
def firstLeaf (name text : Text) : Field :=
  .leaf name text ⟨.zero, .any, [.deep], .none⟩

/-- A field with a nested structure `{a: {b: 'T'}, c: 'int'}`, or without the `c`. -/
def nestedField (more : Bool) : Field :=
  let b : Props := .cons ['b'] (.str ['T']) .nil
  let c : Props := if more then .cons ['c'] (.str ['i', 'n', 't']) .nil else .nil
  let leaf : Field := .leaf ['c'] ['i', 'n', 't'] ⟨⟨.plain .int, false⟩, .any, [.deep], .none⟩
  .nest ['n'] false (.thing (.cons ['a'] (.thing b) c))
    (.nest ['a'] false (.thing b) [firstLeaf ['b'] ['T']] ⟨[.type 0], none, [], true⟩ ::
      if more then [leaf] else []) ⟨[], none, [], true⟩

/-- The type `T`, and a wrap-only type `W` with one field. -/
def wrapSchema (f : Field) : Schema where
  types := [⟨0, ['T'], false, [], [], 0, none, []⟩, ⟨1, ['W'], true, [f], [], 0, none, []⟩]
  enums := []
  refcount _ := 0
  nextId := 2
  removed _ := none

theorem wrapSchema_wellNamed (f : Field) : (wrapSchema f).WellNamed := by
  constructor
  case ids => exact (by decide : [(0 : TypeId), 1].Nodup)
  case enumIds => exact nodup_nil
  case names => exact (by decide : [['T'], ['W']].Nodup)
  case allowed => exact (by decide : ∀ w ∈ [['T'], ['W']], isName w = true ∧ isReserved w = false)

theorem wrapSchema_renamed (f : Field) : (wrapSchema f).Renamed ['T'] ['U'] (.type 0)
    ((wrapSchema f).ren (.type 0) ['U']) :=
  .type (t := ⟨0, ['T'], false, [], [], 0, none, []⟩) rfl rfl

theorem wrapSchema_renamed_wrap (f : Field) : (wrapSchema f).Renamed ['W'] ['V'] (.type 1)
    ((wrapSchema f).ren (.type 1) ['V']) :=
  .type (t := ⟨1, ['W'], true, [f], [], 0, none, []⟩) rfl rfl

/-- A field with a nested structure `{b: 'W?'}`. -/
def selfField : Field :=
  .nest ['n'] false (.thing (.cons ['b'] (.str ['W', '?']) .nil))
    [.leaf ['b'] ['W', '?'] ⟨⟨.plain (.typeId 0), true⟩, .any, [.deep], .none⟩] ⟨[], none, [], true⟩

def noCounts : Counts := ⟨[], 0, fun _ => 0⟩

theorem nestedField_reads (more : Bool) : (nestedField more).Reads
    ((wrapSchema (nestedField more)).env noLang 2) ⟨some 1, ['W'], true⟩ noCounts := by
  cases more with
  | false => exact ⟨rfl, _, rfl, rfl⟩
  | true => exact ⟨rfl, _, rfl, rfl⟩

/-- A nested structure is packed without `c`, and another one is left with the old name of the
type it belongs to. Both are read before the rename, and not after it. -/
theorem rename_loses_declaration :
    (nestedField true).Reads ((wrapSchema (nestedField true)).env noLang 2) ⟨some 1, ['W'], true⟩
      noCounts ∧
    (initDecl (((wrapSchema (nestedField true)).ren (.type 0) ['U']).env noLang 2)
      ⟨some 1, ['W'], true⟩ ['n'] noCounts
      ((nestedField true).renamed (.type 0) ['U']).declared).2 = .error .corrupt ∧
    selfField.Reads ((wrapSchema selfField).env noLang 2) ⟨some 1, ['W'], true⟩ noCounts ∧
    (initDecl (((wrapSchema selfField).ren (.type 1) ['V']).env noLang 2)
      ⟨some 1, ['V'], true⟩ ['n'] noCounts (selfField.renamed (.type 1) ['V']).declared).2 =
        .error (.unknownType ['W']) ∧
    (∀ f, (wrapSchema f).WellNamed ∧
      (wrapSchema f).Renamed ['T'] ['U'] (.type 0) ((wrapSchema f).ren (.type 0) ['U']) ∧
      (wrapSchema f).Renamed ['W'] ['V'] (.type 1) ((wrapSchema f).ren (.type 1) ['V'])) :=
  ⟨nestedField_reads true, rfl, ⟨rfl, _, rfl, rfl⟩, rfl,
    fun f => ⟨wrapSchema_wellNamed f, wrapSchema_renamed f, wrapSchema_renamed_wrap f⟩⟩

theorem rename_keeps_nested : ∃ g,
    (initDecl (((wrapSchema (nestedField false)).ren (.type 0) ['U']).env noLang 2)
      ⟨some 1, ['W'], true⟩ ['n'] noCounts
      ((nestedField false).renamed (.type 0) ['U']).declared).2 = .ok g ∧
    g.meaning = (nestedField false).meaning := by
  have ht : (⟨1, ['W'], true, [nestedField false], [], 0, none, []⟩ : TypeRec) ∈
    (wrapSchema (nestedField false)).types := List.mem_cons_of_mem _ List.mem_cons_self
  refine (rename_keeps_declaration (wrapSchema_wellNamed _) (wrapSchema_renamed _) ht
    (nestedField_reads false)).mpr ?_
  rintro (⟨hlost, -⟩ | ⟨p, hp, -, hword, -⟩)
  · exact hlost rfl
  · obtain rfl : p = (['T'], ⟨.zero, .any, [.deep], .none⟩) := List.mem_singleton.mp hp
    exact absurd hword (by decide)

end Example

end ThingsDB.Types
