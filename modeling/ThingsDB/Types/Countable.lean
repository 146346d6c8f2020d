import ThingsDB.Types.Counts

/-!
# Declarations which are counted

A declaration which `field__init` accepts has its dependency counted, and one with an error
leaves the counts as they were. This is not so for a text which is rejected after its
dependency is counted, for a nested structure which is not in a list, as its `nested_spec` is
the one of the first type, and for a nested structure which names the type it belongs to.
-/

namespace ThingsDB.Types

variable {own : Option TypeId} {K : TypeId → Prop} {base : Target → ℤ} {f : Field}
  {fs gs : List Field} {c c' : Counts} {t : Target}

variable {r : Counts × Except DeclError Field} {cond : Cond} {rc : Target → ℤ} {m : Build}
  {code : Code}

section Text

variable {E : Env} {x : Ctx} {s : Text} {sc : Scan} {leaf : Leaf}

/-- A declaration which is rejected after its dependency is counted: a set of nillable
elements, or a flag `?` for something which is not nillable. -/
def Scan.late (sc : Scan) : Bool :=
  (sc.outer = .set && sc.nestedNillable) || (sc.flags.contains .skipNil && !sc.nillable)

def Leaf.target? (leaf : Leaf) : Option Target := (leaf.spec.target?).or leaf.nested.target?

theorem target?_leaf {name : Text} : (Field.leaf name s leaf).target? = leaf.target? := by
  unfold Field.target? Leaf.target? Field.spec Field.nested
  cases leaf.spec.target? <;> rfl

theorem found_nested (h : found sc code cond = .ok leaf) :
    leaf.nested.target? = (place sc code).2.target? := by
  rw [found_eq h, setNested]
  split_ifs with hobject
  · simp [FSpec.target?, FSpec.any, hobject.2]
  · rfl

theorem target?_found (h : found sc code cond = .ok leaf) :
    leaf.target? = (FSpec.mk code false).target? := by
  rw [Leaf.target?, found_spec h, found_nested h]
  unfold place
  cases sc.outer with
  | plain => simp [Outer.code, FSpec.target?, FSpec.any]
  | arr => simp [Outer.code, FSpec.target?]
  | set => simp [Outer.code, FSpec.target?]
  | restricted => simp [Outer.code, FSpec.target?]

/-- A name which is counted is accepted, if it is not rejected late. -/
theorem found_of_not_late {b : Base} (cond : Cond) (h : sc.late = false)
    (hset : sc.outer = .set → b.code ≤ Base.object.code) (hany : b ≠ .any) (hb : b ≠ .set) :
    ∃ leaf, found sc (.plain b) cond = .ok leaf := by
  simp only [Scan.late, Bool.or_eq_false_iff, Bool.and_eq_false_imp, decide_eq_true_eq,
    List.contains_iff_mem, Bool.not_eq_false'] at h
  have hdone : done sc (place sc (.plain b)).1 = none := by
    rw [done, if_neg]
    rintro ⟨hflag, hnot⟩
    apply hnot
    left
    unfold place
    cases sc.outer.code <;> simp [h.2 hflag, hany]
  have hsetErr : setErr sc (place sc (.plain b)).1 (place sc (.plain b)).2 = none := by
    unfold setErr place
    cases ho : sc.outer with
    | set =>
      have hnum := hset ho
      have hnil := h.1 ho
      simp [Outer.code, Code.num, hnil, hnum]
    | _ => simp [Outer.code, hb]
  exact ⟨_, by unfold found; simp only [hdone, hsetErr]; rfl⟩

variable {name : Text}

theorem counted_leaf (hdep : c.addDep own (.leaf name s leaf) = c')
    (hsmall : (Field.leaf name s leaf).isSelf own → c.selfref ≠ 255)
    (hknown : ∀ i, (Field.leaf name s leaf).other? own = some (.type i) → K i) :
    Counted K own c (.leaf name s leaf) c' where
  exact := trivial
  small := hsmall
  known := hknown
  below := by simp [Field.occs]
  deps := by rw [hdep]
  selfref := by rw [hdep]
  refcount := by simp [hdep, Field.occs]

theorem counted_none (h : leaf.target? = none) : Counted K own c (.leaf name s leaf) c := by
  have htarget : (Field.leaf name s leaf).target? = none := target?_leaf.trans h
  apply counted_leaf
  · simp [Counts.addDep, htarget]
  · simp [Field.isSelf, htarget]
  · simp [Field.other?, htarget]

theorem counted_push (h : leaf.target? = some t) (hown : own.map Target.type ≠ some t)
    (hknown : ∀ i, t = .type i → K i) : Counted K own c (.leaf name s leaf) (c.push t) := by
  have htarget : (Field.leaf name s leaf).target? = some t := target?_leaf.trans h
  apply counted_leaf
  · simp only [Counts.addDep, htarget]
    exact if_neg hown
  · simp only [Field.isSelf, htarget, Option.any_some, decide_eq_true_eq]
    exact fun heq => absurd heq hown
  · intro i hi
    simp only [Field.other?, htarget, Option.filter_some] at hi
    split_ifs at hi
    exact hknown i (Option.some.inj hi)

theorem counted_self {i : TypeId} (h : leaf.target? = some (.type i)) (hsmall : c.selfref ≠ 255) :
    Counted K (some i) c (.leaf name s leaf) c.incSelf := by
  have htarget : (Field.leaf name s leaf).target? = some (.type i) := target?_leaf.trans h
  apply counted_leaf
  · simp only [Counts.addDep, htarget]
    exact if_pos rfl
  · exact fun _ => hsmall
  · simp [Field.other?, htarget]

/-- Nothing is counted with an error, and a field which is made is counted. -/
def Settles (K : TypeId → Prop) (own : Option TypeId) (c : Counts) :
    Counts × Except DeclError Field → Prop
  | (c', .error _) => c' = c
  | (c', .ok f) => Counted K own c f c'

def SettlesLeaf (K : TypeId → Prop) (own : Option TypeId) (c : Counts) :
    Counts × Except DeclError Leaf → Prop
  | (c', .error _) => c' = c
  | (c', .ok leaf) => ∀ name s, Counted K own c (.leaf name s leaf) c'

def Env.Known (E : Env) (i : TypeId) : Prop := ∃ word, E.typeByName word = some i

/-- The type which a field is on is found by its own name only. -/
def Ctx.Owns (E : Env) (x : Ctx) : Prop :=
  ∀ i, x.self = some i → ∀ word, E.typeByName word = some i → word = x.name

theorem settles_found {b : Base} (hb : (FSpec.mk (.plain b) false).target? = none) :
    SettlesLeaf K own c (c, found sc (.plain b) cond) := by
  cases h : found sc (.plain b) cond with
  | error e => rfl
  | ok leaf => exact fun _ _ => counted_none ((target?_found h).trans hb)

theorem settles_initEnumDefault (hlate : sc.late = false) :
    SettlesLeaf K own c (initEnumDefault E c sc) := by
  unfold initEnumDefault
  simp only
  split
  · split
    · rfl
    · split
      · rfl
      · rfl
  · next en _ =>
    split
    · rfl
    · rfl
    · rfl
    · next hplain =>
      split
      · rfl
      · split
        · obtain ⟨leaf, hleaf⟩ := found_of_not_late (b := .enumId en)
            (.member en ((sc.word.drop ((sc.word.takeWhile (· ≠ '{')).length + 1)).dropLast))
            hlate (by simp [hplain]) (by simp) (by simp)
          rw [hleaf]
          intro name s
          apply counted_push ((target?_found hleaf).trans rfl)
          · cases own <;> simp
          · simp
        · rfl

theorem settles_initSelf (hlate : sc.late = false) (hself : x.self ≠ none) :
    SettlesLeaf K x.self c (initSelf x c s sc) := by
  unfold initSelf
  cases hx : x.self with
  | none => exact absurd hx hself
  | some i =>
    simp only
    split_ifs with _ hsmall
    · rfl
    · rfl
    · have hset : sc.outer = .set → (Base.typeId i).code ≤ Base.object.code := by
        intro _
        have := i.isLt
        simp only [Base.code]
        omega
      obtain ⟨leaf, hleaf⟩ :=
        found_of_not_late (b := .typeId i) .none hlate hset (by simp) (by simp)
      rw [hleaf]
      exact fun _ _ => counted_self ((target?_found hleaf).trans rfl) hsmall

theorem settles_initName (hlate : sc.late = false) (hx : x.Owns E) (hK : ∀ i, E.Known i → K i)
    (hname : sc.word ≠ x.name) : SettlesLeaf K x.self c (initName E x c s sc) := by
  obtain ⟨e, heq, -⟩ | ⟨dep, htype, -, heq⟩ | ⟨en, -, -, hset, heq⟩ := initName_cases E x c s sc
  · rw [heq]
    rfl
  · have hset : sc.outer = .set → (Base.typeId dep).code ≤ Base.object.code := by
      intro _
      have := dep.isLt
      simp only [Base.code]
      omega
    obtain ⟨leaf, hleaf⟩ := found_of_not_late (b := .typeId dep) .none hlate hset (by simp)
      (by simp)
    rw [heq, hleaf]
    intro name text
    apply counted_push ((target?_found hleaf).trans rfl)
    · intro hown
      obtain ⟨i, hi, heq⟩ := Option.map_eq_some_iff.mp hown
      cases heq
      exact hname (hx _ hi _ htype)
    · exact fun i hi => hK i ⟨sc.word, by rw [htype, Target.type.inj hi]⟩
  · obtain ⟨leaf, hleaf⟩ := found_of_not_late (b := .enumId en) .none hlate
      (fun h => absurd h hset) (by simp) (by simp)
    rw [heq, hleaf]
    intro name text
    apply counted_push ((target?_found hleaf).trans rfl)
    · cases x.self <;> simp
    · simp

/-- A text which is not rejected after its dependency is counted. In a nested structure it
does not name the type which the structure belongs to. -/
def countableText (nested : Bool) (name s : Text) : Bool :=
  match scan s with
  | .error _ => true
  | .ok sc => sc.word = [] && sc.outer ≠ .plain || !sc.named ||
      !sc.late && !(nested && sc.word = name)

theorem settles_initText (hx : x.Owns E) (hK : ∀ i, E.Known i → K i)
    (hs : countableText x.self.isNone x.name s) : SettlesLeaf K x.self c (initText E x c s) := by
  unfold initText
  cases hscan : scan s with
  | error e => rfl
  | ok sc =>
    simp only
    split
    · next outer _ hcode =>
      intro name text
      apply counted_none
      cases ho : sc.outer <;> simp [ho, Outer.code] at hcode <;> subst hcode <;> rfl
    · next hempty =>
      rcases initWord_cases E x c s sc with ⟨r, heq⟩ | ⟨b, hmap, heq⟩ | ⟨hnamed, hcases⟩
      · rw [heq]
        cases hr : initCond sc r with
        | error e => rfl
        | ok leaf => exact fun _ _ => counted_none (initCond_spec hr).2
      · rw [heq]
        exact settles_found (fieldMap_code hmap)
      · have hword : ¬(sc.word = [] ∧ sc.outer ≠ .plain) := by
          rintro ⟨hw, ho⟩
          cases houter : sc.outer with
          | plain => exact ho houter
          | _ => exact hempty _ hw (by rw [houter]; rfl)
        simp only [countableText, hscan, hnamed, Bool.or_eq_true, Bool.and_eq_true,
          decide_eq_true_eq, Bool.not_eq_true', Bool.true_eq_false, or_false] at hs
        obtain ⟨hlate, hown⟩ := hs.resolve_left hword
        rcases hcases with heq | ⟨hname, heq⟩ | ⟨hname, heq⟩
        · rw [heq]
          exact settles_initEnumDefault hlate
        · rw [heq]
          apply settles_initSelf hlate
          exact Option.isSome_iff_ne_none.mp (by simpa [hname] using hown)
        · rw [heq]
          exact settles_initName hlate hx hK hname

end Text

section Decl

variable {E : Env} {x : Ctx} {name : Text}

mutual

/-- A declaration with which the counts stay exact: no text is rejected after its dependency
is counted, and nested structures are in a list and do not name the type they belong to. -/
def Decl.countable (wrapOnly nested : Bool) (owner : Text) : Decl → Bool
  | .str s => countableText nested owner s
  | .thing _ => !wrapOnly
  | .one (.thing props) => !wrapOnly || props.countable true true owner
  | _ => true

def Props.countable (wrapOnly nested : Bool) (owner : Text) : Props → Bool
  | .nil => true
  | .cons _ d rest => d.countable wrapOnly nested owner && rest.countable wrapOnly nested owner

end

/-- A type while its fields are created. -/
structure Build.Tracked (own : Option TypeId) (K : TypeId → Prop) (base : Target → ℤ)
    (m : Build) : Prop where
  tracks : Tracks own K base m.fields m.counts
  exact : AllExact m.fields

theorem Build.Tracked.create (hm : m.Tracked own K base) (hr : Settles K own m.counts r) :
    (create m r).1.Tracked own K base := by
  obtain ⟨c', e | f⟩ := r
  · obtain rfl : c' = m.counts := hr
    exact hm
  · have hf : Counted K own m.counts f c' := hr
    constructor
    · exact (hm.tracks.counted hf).perm (List.perm_append_singleton f _).symm
    · have hall := allExact_iff.mp hm.exact
      apply allExact_iff.mpr
      intro g hg
      rcases List.mem_append.mp hg with hg | hg
      · exact hall g hg
      · rw [List.mem_singleton.mp hg]
        exact hf.exact

theorem Build.Tracked.assign {D : Decl}
    (hm : m.Tracked own K base) (hD : D.countable x.wrapOnly own.isNone x.name)
    (hr : D.countable true own.isNone x.name → Settles K own m.counts r) :
    (assign x m name D r).1.Tracked own K base := by
  obtain ⟨e, heq, -⟩ | ⟨m', heq, hf, hc⟩ | ⟨hd, heq⟩ := assign_cases x m name D r
  · rwa [heq]
  · rw [heq]
    exact ⟨by rw [hf, hc]; exact hm.tracks, by rw [hf]; exact hm.exact⟩
  · rw [heq]
    refine hm.create (hr ?_)
    obtain hwpo | ⟨s, rfl⟩ := hd
    · rwa [hwpo] at hD
    · rwa [Decl.countable] at hD ⊢

theorem Tracks.cleanup (fs : List Field) (h : Tracks own K base (fs ++ gs) c) :
    Tracks own K base fs (gs.foldr (fun f c => c.remove own f) c) := by
  induction gs generalizing fs with
  | nil => simpa using h
  | cons g gs ih =>
    have hrest : Tracks own K base (fs ++ [g]) (gs.foldr (fun f c => c.remove own f) c) :=
      ih (fs ++ [g]) (by simpa using h)
    exact (hrest.perm (List.perm_append_singleton g fs)).remove

theorem Build.Tracked.cleanup (hm : m.Tracked own K base) : Tracks own K base [] (m.cleanup own) :=
  Tracks.cleanup [] hm.tracks

theorem Tracks.nil_deps (h : Tracks own K base [] c) : c.deps = [] := List.perm_nil.mp h.deps

theorem Tracks.nil_refcount (h : Tracks own K base [] c) : c.refcount = base := by
  funext t
  simp [h.refcount, h.nil_deps, fieldsOccs]

theorem Build.Tracked.empty : (Build.empty rc).Tracked none K rc := by
  constructor
  · constructor
    case deps => exact List.Perm.refl _
    case selfref => rfl
    case small => simp [Build.empty]
    case refcount => simp [Build.empty, fieldsOccs]
    case known => simp [Build.empty, fieldsOccs]
  · trivial

theorem decAll_nil : decAll [] rc = rc := by
  funext t
  simp [decAll]

theorem settles_initType {raw : Decl} {props : Props} {r : Build × Option DeclError}
    (hr : r.1.Tracked none K c.refcount) : Settles K own c (initType name true raw props c r) := by
  obtain ⟨m, e⟩ := r
  have hm : m.Tracked none K c.refcount := hr
  cases e with
  | some e =>
    have hclean := hm.cleanup
    simp [initType, Settles, hclean.nil_deps, hclean.nil_refcount, decAll_nil]
  | none =>
    constructor
    case exact => exact ⟨rfl, hm.tracks.deps, hm.exact⟩
    case small => simp [Field.isSelf, Field.target?, Field.spec, Field.nested, FSpec.target?]
    case known => simp [Field.other?, Field.target?, Field.spec, Field.nested, FSpec.target?]
    case below => exact fun i hi => hm.tracks.known i hi
    case deps => simp [Counts.addDep, Field.target?, Field.spec, Field.nested, FSpec.target?]
    case selfref => simp [Counts.addDep, Field.target?, Field.spec, Field.nested, FSpec.target?]
    case refcount =>
      intro t
      simp [Counts.addDep, Field.target?, Field.spec, Field.nested, FSpec.target?, Field.occs,
        hm.tracks.refcount t, add_assoc]

mutual

theorem settles_initDecl {x : Ctx} {name : Text} {c : Counts} (hx : x.Owns E)
    (hK : ∀ i, E.Known i → K i) : ∀ D : Decl, D.countable true x.self.isNone x.name →
      Settles K x.self c (initDecl E x name c D)
  | .str s, h => by
    rw [Decl.countable] at h
    have htext := settles_initText (c := c) hx hK h
    rw [initDecl]
    split
    · next heq =>
      rw [heq] at htext
      exact htext name s
    · next heq =>
      rw [heq] at htext
      exact htext
  | .thing props, h => by simp [Decl.countable] at h
  | .one (.thing props), h => by
    have hown : Ctx.Owns E ⟨none, x.name, true⟩ := by simp [Ctx.Owns]
    have hcount : props.countable true true x.name = true := by simpa [Decl.countable] using h
    have hprops : (initProps E ⟨none, x.name, true⟩ (.empty c.refcount) props).1.Tracked none
        K c.refcount := tracked_initProps hown hK Build.Tracked.empty props hcount
    rw [initDecl]
    cases closuresErr E props with
    | some e => rfl
    | none => exact settles_initType hprops
  | .one (.str _), _ | .one (.closure _), _ | .one (.one _), _ | .one (.many _), _
  | .one (.other _), _ => by
    simp [initDecl, Settles]
  | .closure _, _ | .many _, _ | .other _, _ => by simp [initDecl, Settles]

theorem tracked_initProps {base : Target → ℤ} {x : Ctx} {m : Build} (hx : x.Owns E)
    (hK : ∀ i, E.Known i → K i) (hm : m.Tracked x.self K base) :
    ∀ props : Props, props.countable x.wrapOnly x.self.isNone x.name →
      (initProps E x m props).1.Tracked x.self K base
  | .nil, _ => by
    rw [initProps]
    exact hm
  | .cons name D rest, h => by
    rw [Props.countable, Bool.and_eq_true] at h
    have hassign : (assign x m name D (initDecl E x name m.counts D)).1.Tracked x.self
        K base := hm.assign h.1 (settles_initDecl hx hK D)
    rw [initProps]
    split
    · next heq =>
      rw [heq] at hassign
      exact tracked_initProps hx hK hassign rest h.2
    · next heq =>
      rw [heq] at hassign
      exact hassign

end

end Decl

end ThingsDB.Types
