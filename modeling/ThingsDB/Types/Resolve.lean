import ThingsDB.Types.Declared

/-!
# The types which declarations name

The specification which is stored for a name in a declaration, and the type by which
`ti__wrap_field_thing` wraps a thing. A nested structure has the name of the type it is part of,
so there the name of the type itself is recognised, but no specification is set.
-/

namespace ThingsDB.Types

variable {s : Schema} {E : Env} {x : Ctx} {c : Counts} {name w : Text} {f : Field} {data : Leaf}
  {sc : Scan} {text : Text} {own i : TypeId} {L : Lang} {fuel : ℕ}

/-- The specification for the word of a declaration, which may be in brackets. -/
def Leaf.named (data : Leaf) (sc : Scan) : FSpec :=
  match sc.outer with
  | .plain => data.spec
  | .arr | .set | .restricted => data.nested

/-- The type in `ti__wrap_field_thing` with the fields which a thing is wrapped by. The things
of a list or a set are wrapped by the nested specification. -/
def Schema.wrapType (s : Schema) (spec : FSpec) : Option TypeRec :=
  match spec.target? with
  | some (.type i) => s.byId i
  | _ => none

mutual

/-- Each name of a type in the declarations of a field is stored as the id of this type, and
things are wrapped by this type. -/
def Field.Resolved (s : Schema) : Field → Prop
  | .leaf _ text data => ∀ sc u, scan text = .ok sc → s.byName sc.word = some u →
      (data.named sc).target? = some (.type u.id) ∧ s.wrapType (data.named sc) = some u
  | .nest _ _ _ fields _ => allResolved s fields

def allResolved (s : Schema) : List Field → Prop
  | [] => True
  | f :: fs => f.Resolved s ∧ allResolved s fs

end

mutual

def Field.mentions (w : Text) : Field → Bool
  | .leaf _ text _ => wordIs w text
  | .nest _ _ _ fields _ => anyMentions w fields

def anyMentions (w : Text) : List Field → Bool
  | [] => false
  | f :: fs => f.mentions w || anyMentions w fs

end

mutual

/-- The same for the value which is offered, where the Id definition and methods are no
declarations. -/
def Decl.mentions (w : Text) : Decl → Bool
  | .str s => !isSpecial s && wordIs w s
  | .thing props => props.mentions w
  | .one d => d.mentions w
  | .closure _ | .many _ | .other _ => false

def Props.mentions (w : Text) : Props → Bool
  | .nil => false
  | .cons _ d rest => d.mentions w || rest.mentions w

end

/-- A nested structure in a declaration which names a type. -/
def Decl.mentionsInside (w : Text) : Decl → Bool
  | .str _ => false
  | d => d.mentions w

theorem anyMentions_eq (fs : List Field) : anyMentions w fs = fs.any (Field.mentions w) := by
  induction fs with
  | nil => rfl
  | cons f fs ih => rw [anyMentions, List.any_cons, ih]

theorem mentionsInside_nestDecl (arr : Bool) (props : Props) :
    (nestDecl arr props).mentionsInside w = props.mentions w := by
  cases arr <;> simp [nestDecl, Decl.mentionsInside, Decl.mentions]

section Leaf

theorem target?_named (h : found sc (.plain (.typeId i)) .none = .ok data) :
    (data.named sc).target? = some (.type i) := by
  rw [found_eq h, Leaf.named]
  cases ho : sc.outer <;> simp [place, setNested, ho, Outer.code, FSpec.target?]

/-- The id which is stored for the name of a type: the first one for the type itself in a
nested structure. -/
theorem target?_initText (hx : x.On E own) (hfree : FreeName sc.word) (hs : scan text = .ok sc)
    (hi : E.typeByName sc.word = some i) (h : (initText E x c text).2 = .ok data) :
    (data.named sc).target? =
      some (.type (if x.self = none ∧ sc.word = x.name then 0 else i)) := by
  rw [initText_of_scan hs hfree.ne_nil, initWord_name hfree] at h
  split_ifs at h with hname
  · have hfound := initSelf_ok h
    obtain rfl : own = i := by simpa [hname, hx.name] using hi
    rw [target?_named hfound]
    rcases hx.self with hself | ⟨hself, -⟩
    · simp [hself]
    · simp [hself, hname]
  · unfold initName at h
    rw [hi] at h
    simp only at h
    rw [if_neg fun hself => hname hself.2]
    split at h
    · cases h
    · exact target?_named h

end Leaf

section Mentions

/-- What the fields of a nested structure mention, from what its declarations do. -/
def MentionsProps (E : Env) (x : Ctx) (w : Text) (props : Props) : Prop :=
  ∀ m m', props.packed = true → initProps E x m props = (m', none) →
    anyMentions w m'.fields = (anyMentions w m.fields || props.mentions w)

theorem mentions_nest (arr : Bool) {props : Props} (hprops : MentionsProps E x.inner w props)
    (hpacked : props.packed) (h : (initDecl E x name c (nestDecl arr props)).2 = .ok f) :
    f.mentions w = props.mentions w := by
  obtain ⟨-, m, hm, rfl⟩ := initDecl_nest_ok h
  rw [Field.mentions, hprops _ _ hpacked hm]
  simp [Build.empty, anyMentions]

theorem mentionsProps_cons {d : Decl} {rest : Props} (hself : x.self = none)
    (hd : ∀ c f, d.packed → Declares d → (initDecl E x name c d).2 = .ok f →
      f.mentions w = d.mentions w)
    (hrest : MentionsProps E x w rest) : MentionsProps E x w (.cons name d rest) := by
  intro m m' hpacked h
  obtain ⟨hdpacked, hrpacked, m₁, h, hstep⟩ := initProps_cons_ok hself hpacked h
  rw [hrest m₁ m' hrpacked h, Props.mentions]
  rcases hstep with ⟨rfl, -, rfl⟩ | ⟨s, rfl, hs, rfl⟩ | ⟨hdecl, c, f, hinit, rfl⟩
  · simp [Decl.mentions, isSpecial]
  · simp [Decl.mentions, isSpecial, hs]
  · have hf := hd m.counts f hdpacked hdecl (by rw [hinit])
    rw [anyMentions_eq, List.any_append, ← anyMentions_eq]
    simp [hf, Bool.or_assoc]

theorem mentions_initProps (hx : x.inner = x) : ∀ props : Props, MentionsProps E x w props := by
  suffices h : Nesting E x (fun d => ∀ name c f, d.packed = true → Declares d →
      (initDecl E x name c d).2 = .ok f → f.mentions w = d.mentions w)
    (MentionsProps E x w) from h.props
  constructor
  case str =>
    intro s name c f _ hdecl h
    obtain ⟨data, -, rfl⟩ := initDecl_str_ok h
    simp [Field.mentions, Decl.mentions, declares_str.mp hdecl]
  case nest =>
    intro arr props hprops name c f hpacked _ h
    rw [← hx] at hprops
    rw [mentions_nest arr hprops (by simpa using hpacked) h]
    cases arr <;> simp [nestDecl, Decl.mentions]
  case corrupt => exact fun d hd name c f _ _ h => absurd h (hd name c f)
  case nil =>
    intro m m' _ h
    cases h
    simp [Props.mentions]
  case cons => exact fun name d rest hd hrest => mentionsProps_cons (hx ▸ rfl) (hd name) hrest

end Mentions

section Resolved

variable {t u : TypeRec}

theorem Schema.WellNamed.free (hs : s.WellNamed) (hu : s.byName w = some u) : FreeName w := by
  have hmem : w ∈ s.names :=
    List.mem_append_left _ (List.mem_map.mpr ⟨u, Schema.mem_of_byName hu, Schema.name_of_byName hu⟩)
  exact freeName_of_not_reserved (hs.allowed w hmem).1 (hs.allowed w hmem).2

theorem Schema.wrapType_of_target? {spec : FSpec} (hs : s.WellNamed) (hu : u ∈ s.types)
    (h : spec.target? = some (.type u.id)) : s.wrapType spec = some u := by
  rw [Schema.wrapType, h]
  exact hs.ids.byId_of_mem hu

/-- A declaration is resolved, unless it is in a nested structure and names the type itself. -/
theorem resolved_leaf (hs : s.WellNamed) (ht : t ∈ s.types) (hname : x.name = t.name)
    (hx : x.On (s.env L fuel) t.id) (h : (initText (s.env L fuel) x c text).2 = .ok data) :
    (Field.leaf name text data).Resolved s ↔
      x.self ≠ none ∨ t.id = 0 ∨ wordIs x.name text = false := by
  have htarget : ∀ sc u, scan text = .ok sc → s.byName sc.word = some u →
      (data.named sc).target? =
        some (.type (if x.self = none ∧ sc.word = x.name then 0 else u.id)) := by
    intro sc u hsc hu
    refine target?_initText hx (hs.free hu) hsc ?_ h
    simp [Schema.env, hu]
  rw [Field.Resolved]
  constructor
  · intro hres
    by_contra hnot
    simp only [not_or, not_not, Bool.not_eq_false] at hnot
    obtain ⟨hself, hid, hword⟩ := hnot
    cases hsc : scan text with
    | error e => simp [wordIs, hsc] at hword
    | ok sc =>
      rw [wordIs_of_scan hsc, decide_eq_true_eq] at hword
      have hbyName : s.byName sc.word = some t := by
        rw [hword, hname]
        exact hs.byName_of_mem ht
      have hfirst := htarget sc t hsc hbyName
      rw [if_pos ⟨hself, hword⟩, (hres sc t hsc hbyName).1] at hfirst
      exact hid (Target.type.inj (Option.some.inj hfirst))
  · intro hok sc u hsc hu
    have hid : (if x.self = none ∧ sc.word = x.name then 0 else u.id) = u.id := by
      split_ifs with hself
      · have hut : t = u := by
          rw [hself.2, hname, hs.byName_of_mem ht] at hu
          exact Option.some.inj hu
        rcases hok with hok | hok | hok
        · exact absurd hself.1 hok
        · rw [← hut, hok]
        · rw [wordIs_of_scan hsc, decide_eq_false_iff_not] at hok
          exact absurd hself.2 hok
      · rfl
    have heq := htarget sc u hsc hu
    rw [hid] at heq
    exact ⟨heq, Schema.wrapType_of_target? hs (Schema.mem_of_byName hu) heq⟩

mutual

theorem resolved_read (hs : s.WellNamed) (ht : t ∈ s.types) (hname : x.name = t.name)
    (hself : x.self = none) (hx : x.On (s.env L fuel) t.id) :
    ∀ f : Field, f.Read (s.env L fuel) x →
      (f.Resolved s ↔ t.id = 0 ∨ f.mentions x.name = false)
  | .leaf name text data, hread => by
    obtain ⟨⟨c, h⟩, -⟩ := hread
    rw [resolved_leaf hs ht hname hx h, Field.mentions]
    simp [hself]
  | .nest _ _ _ fields _, hread => by
    rw [Field.Resolved, Field.mentions]
    exact resolved_readAll hs ht hname hself hx fields hread.1

theorem resolved_readAll (hs : s.WellNamed) (ht : t ∈ s.types) (hname : x.name = t.name)
    (hself : x.self = none) (hx : x.On (s.env L fuel) t.id) :
    ∀ fs : List Field, readAll (s.env L fuel) x fs →
      (allResolved s fs ↔ t.id = 0 ∨ anyMentions x.name fs = false)
  | [], _ => by simp [allResolved, anyMentions]
  | f :: fs, hread => by
    rw [allResolved, anyMentions, resolved_read hs ht hname hself hx f hread.1,
      resolved_readAll hs ht hname hself hx fs hread.2, Bool.or_eq_false_iff]
    tauto

end

theorem TypeRec.on_ctx (hs : s.WellNamed) (ht : t ∈ s.types) : t.ctx.On (s.env L fuel) t.id := by
  refine ⟨?_, Or.inl rfl⟩
  have hbyName := hs.byName_of_mem ht
  simp [Schema.env, TypeRec.ctx, hbyName]

/-- All names of types in a declaration are resolved, exactly if no nested structure in it names
the type which the declaration is for, or if this is the type with the first id. -/
theorem resolved_iff (hs : s.WellNamed) (ht : t ∈ s.types) {d : Decl} (hpacked : d.packed = true)
    (h : (initDecl (s.env L fuel) t.ctx name c d).2 = .ok f) :
    f.Resolved s ↔ t.id = 0 ∨ d.mentionsInside t.name = false := by
  have hon : t.ctx.On (s.env L fuel) t.id := TypeRec.on_ctx hs ht
  rcases initDecl_ok h with ⟨text, data, rfl, htext, rfl⟩ | ⟨arr, props, rfl⟩
  · rw [resolved_leaf hs ht rfl hon htext]
    simp [Decl.mentionsInside, TypeRec.ctx]
  · have hprops : props.packed = true := by
      cases arr <;> simpa [nestDecl, Decl.packed] using hpacked
    have hinner : t.ctx.inner.inner = t.ctx.inner := rfl
    have hread := read_nest arr (read_initProps hinner props) hprops h
    have hin : t.ctx.inner.On (s.env L fuel) t.id := ⟨hon.name, Or.inr ⟨rfl, rfl⟩⟩
    rw [resolved_read hs ht rfl rfl hin f hread, mentionsInside_nestDecl]
    have hmentions := mentions_nest (w := t.name) arr (mentions_initProps hinner props) hprops h
    rw [← hmentions]
    rfl

end Resolved

/-- Two types: `A`, and the wrap-only type `N` with the second id. -/
def twoTypes : Schema where
  types := [.new 0 ['A'], .new 1 ['N']]
  enums := []
  refcount _ := 0
  nextId := 2
  removed _ := none

theorem twoTypes_wellNamed : twoTypes.WellNamed := by
  constructor
  · simp [Schema.Distinct, twoTypes, TypeRec.new]
  · simp [twoTypes]
  · decide
  · decide

/-- In the declaration of a nested structure of `N`, its name is stored as the id of `A`. -/
theorem nested_self_names_first :
    ∃ f, (initDecl (twoTypes.env noLang 0) (TypeRec.new 1 ['N']).ctx ['n'] ⟨[], 0, fun _ => 0⟩
        (.thing (.cons ['s'] (.str ['N', '?']) .nil))).2 = .ok f ∧ ¬ f.Resolved twoTypes := by
  refine ⟨_, rfl, ?_⟩
  intro h
  have hnext := (h.1 ⟨[.deep], true, .plain, false, ['N']⟩ (.new 1 ['N']) rfl rfl).1
  cases hnext

/-- A list of `A` in a nested structure of `N` is resolved. -/
theorem nested_other_resolves :
    ∃ f, (initDecl (twoTypes.env noLang 0) (TypeRec.new 1 ['N']).ctx ['n'] ⟨[], 0, fun _ => 0⟩
        (.thing (.cons ['a'] (.str ['[', 'A', ']']) .nil))).2 = .ok f ∧ f.Resolved twoTypes := by
  obtain ⟨f, h⟩ : ∃ f, (initDecl (twoTypes.env noLang 0) (TypeRec.new 1 ['N']).ctx ['n']
      ⟨[], 0, fun _ => 0⟩ (.thing (.cons ['a'] (.str ['[', 'A', ']']) .nil))).2 = .ok f := ⟨_, rfl⟩
  have hmem : TypeRec.new 1 ['N'] ∈ twoTypes.types := by simp [twoTypes]
  exact ⟨f, h, (resolved_iff twoTypes_wellNamed hmem rfl h).mpr (Or.inr rfl)⟩

end ThingsDB.Types
