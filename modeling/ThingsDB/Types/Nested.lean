import ThingsDB.Types.Rename

/-!
# Nested structures after they are read

What is known about the fields of a nested structure, from the declarations which they are
read from. The values of a nested structure are packed data, so that there are texts, lists
and things only.
-/

namespace ThingsDB.Types

variable {E : Env} {x : Ctx} {c : Counts} {name : Text} {f : Field} {fs : List Field}
  {m m' : Build} {d : Decl} {init : Counts × Except DeclError Field}

mutual

/-- A value which packed data can have. -/
def Decl.packed : Decl → Bool
  | .closure _ => false
  | .thing props => props.packed
  | .one d => d.packed
  | .str _ | .many _ | .other _ => true

def Props.packed : Props → Bool
  | .nil => true
  | .cons _ d rest => d.packed && rest.packed

end

/-- The type without a name for a nested structure. -/
def Ctx.inner (x : Ctx) : Ctx := ⟨none, x.name, true⟩

/-- The declaration of a nested structure, which may be in a list. -/
def nestDecl (arr : Bool) (props : Props) : Decl :=
  if arr then .one (.thing props) else .thing props

variable {s : Text}

section Init

theorem initDecl_str : (initDecl E x name c (.str s)).2 =
    (initText E x c s).2.map (Field.leaf name s) := by
  rw [initDecl]
  cases h : initText E x c s with
  | mk c' r => cases r <;> rfl

theorem initDecl_nest (arr : Bool) (props : Props) : initDecl E x name c (nestDecl arr props) =
    match closuresErr E props with
    | some e => (c, .error (.cond e))
    | none => initType name arr (nestDecl arr props) props c
        (initProps E x.inner (.empty c.refcount) props) := by
  cases arr with
  | false =>
    rw [nestDecl, if_neg Bool.false_ne_true, initDecl]
    cases closuresErr E props <;> rfl
  | true =>
    rw [nestDecl, if_pos rfl, initDecl]
    cases closuresErr E props <;> rfl

def Build.ano (m : Build) (props : Props) : Ano :=
  ⟨m.counts.deps, m.idname, m.methods, !hasIdText props⟩

theorem initDecl_nest_ok {arr : Bool} {props : Props}
    (h : (initDecl E x name c (nestDecl arr props)).2 = .ok f) : closuresErr E props = none ∧
      ∃ m, initProps E x.inner (.empty c.refcount) props = (m, none) ∧
        f = .nest name arr (nestDecl arr props) m.fields (m.ano props) := by
  rw [initDecl_nest] at h
  cases hclosures : closuresErr E props with
  | some e =>
    rw [hclosures] at h
    cases h
  | none =>
    rw [hclosures] at h
    cases hprops : initProps E x.inner (.empty c.refcount) props with
    | mk m r =>
      rw [hprops] at h
      cases r with
      | some e => cases h
      | none =>
        cases h
        exact ⟨rfl, m, rfl, rfl⟩

theorem initDecl_str_ok (h : (initDecl E x name c (.str s)).2 = .ok f) :
    ∃ data, (initText E x c s).2 = .ok data ∧ f = .leaf name s data := by
  rw [initDecl_str] at h
  cases hdata : (initText E x c s).2 with
  | error e =>
    rw [hdata] at h
    cases h
  | ok data =>
    rw [hdata] at h
    cases h
    exact ⟨data, rfl, rfl⟩

theorem initDecl_ok (h : (initDecl E x name c d).2 = .ok f) :
    (∃ s data, d = .str s ∧ (initText E x c s).2 = .ok data ∧ f = .leaf name s data) ∨
    ∃ arr props, d = nestDecl arr props := by
  cases d with
  | str s =>
    obtain ⟨data, hdata, rfl⟩ := initDecl_str_ok h
    exact Or.inl ⟨s, data, rfl, hdata, rfl⟩
  | thing props => exact Or.inr ⟨false, props, rfl⟩
  | one d =>
    cases d with
    | thing props => exact Or.inr ⟨true, props, rfl⟩
    | _ =>
      rw [initDecl] at h
      · cases h
      · simp
      · simp
      · simp
  | _ =>
    rw [initDecl] at h
    · cases h
    · simp
    · simp
    · simp

@[simp] theorem packed_nestDecl (arr : Bool) (props : Props) :
    (nestDecl arr props).packed = props.packed := by
  cases arr <;> simp [nestDecl, Decl.packed]

/-- The cases of an induction on how declarations are nested. -/
structure Nesting (E : Env) (x : Ctx) (D : Decl → Prop) (P : Props → Prop) : Prop where
  str : ∀ s, D (.str s)
  nest : ∀ arr props, P props → D (nestDecl arr props)
  corrupt : ∀ d, (∀ name c f, (initDecl E x name c d).2 ≠ .ok f) → D d
  nil : P .nil
  cons : ∀ name d rest, D d → P rest → P (.cons name d rest)

mutual

theorem Nesting.decl {D : Decl → Prop} {P : Props → Prop} (h : Nesting E x D P) : ∀ d : Decl, D d
  | .str s => h.str s
  | .thing props => h.nest false props (h.props props)
  | .one (.thing props) => h.nest true props (h.props props)
  | .one (.str _) | .one (.closure _) | .one (.one _) | .one (.many _) | .one (.other _)
  | .closure _ | .many _ | .other _ => h.corrupt _ fun name c f hok => by
    rcases initDecl_ok hok with ⟨s, data, heq, -⟩ | ⟨arr, props, heq⟩
    · cases heq
    · cases arr <;> cases heq

theorem Nesting.props {D : Decl → Prop} {P : Props → Prop} (h : Nesting E x D P) :
    ∀ props : Props, P props
  | .nil => h.nil
  | .cons name d rest => h.cons name d rest (h.decl d) (h.props rest)

end

end Init

variable {rest : Props}

section Assign

/-- A text which is the Id definition or a method of a nested structure. -/
def isSpecial (s : Text) : Bool := s = ['#'] || isClosureText s

/-- The declarations which a field is made for. -/
def Declares (d : Decl) : Prop :=
  (∃ s, d = .str s ∧ isSpecial s = false) ∨ ∃ arr props, d = nestDecl arr props

@[simp] theorem declares_str : Declares (.str s) ↔ isSpecial s = false := by
  constructor
  · rintro (⟨s, ⟨⟩, hs⟩ | ⟨arr, props, h⟩)
    · exact hs
    · cases arr <;> cases h
  · exact fun hs => Or.inl ⟨s, rfl, hs⟩

theorem assign_declares (hd : Declares d) (hmode : x.wrapOnly) :
    assign x m name d init = create m init := by
  rcases hd with ⟨s, rfl, hs⟩ | ⟨arr, props, rfl⟩
  · simp only [isSpecial, Bool.or_eq_false_iff, decide_eq_false_iff_not] at hs
    simp [assign, hs]
  · cases arr <;> simp [assign, nestDecl, hmode]

theorem assign_ok (hself : x.self = none) (hpacked : d.packed)
    (h : assign x m name d init = (m', none)) :
    (d = .str ['#'] ∧ m.idname = none ∧ m' = { m with idname := some name }) ∨
    (∃ s, d = .str s ∧ isClosureText s ∧ m' = { m with methods := m.methods ++ [(name, s)] }) ∨
    (Declares d ∧ ∃ c f, init = (c, .ok f) ∧
      m' = { m with counts := c, fields := m.fields ++ [f] }) := by
  have hcreate : create m init = (m', none) → ∃ c f, init = (c, .ok f) ∧
      m' = { m with counts := c, fields := m.fields ++ [f] } := by
    intro h
    obtain ⟨c, r⟩ := init
    cases r with
    | error e => cases h
    | ok f =>
      cases h
      exact ⟨c, f, rfl, rfl⟩
  cases d with
  | closure s => cases hpacked
  | other tp => cases h
  | many n => cases h
  | thing props =>
    rw [assign] at h
    split_ifs at h
    · exact Or.inr (Or.inr ⟨Or.inr ⟨false, props, rfl⟩, hcreate h⟩)
    · cases h
  | one d =>
    cases d with
    | thing props =>
      rw [assign] at h
      split_ifs at h
      · exact Or.inr (Or.inr ⟨Or.inr ⟨true, props, rfl⟩, hcreate h⟩)
      · cases h
    | _ => cases h
  | str s =>
    rw [assign] at h
    by_cases hid : s = ['#']
    · rw [if_pos hid] at h
      cases hname : m.idname with
      | some n =>
        rw [hname] at h
        cases h
      | none =>
        rw [hname] at h
        cases h
        exact Or.inl ⟨by rw [hid], rfl, rfl⟩
    · rw [if_neg hid] at h
      by_cases hclosure : isClosureText s = true
      · rw [if_pos ⟨hself, hclosure⟩] at h
        cases h
        exact Or.inr (Or.inl ⟨s, rfl, hclosure, rfl⟩)
      · rw [if_neg (fun h => hclosure h.2)] at h
        have hs : isSpecial s = false := by simp [isSpecial, hid, hclosure]
        exact Or.inr (Or.inr ⟨Or.inl ⟨s, rfl, hs⟩, hcreate h⟩)

/-- One property of a nested structure is read, and then the rest. -/
theorem initProps_cons_ok (hself : x.self = none) (hpacked : (Props.cons name d rest).packed)
    (h : initProps E x m (.cons name d rest) = (m', none)) :
    d.packed ∧ rest.packed ∧ ∃ m₁, initProps E x m₁ rest = (m', none) ∧
      ((d = .str ['#'] ∧ m.idname = none ∧ m₁ = { m with idname := some name }) ∨
        (∃ s, d = .str s ∧ isClosureText s ∧
          m₁ = { m with methods := m.methods ++ [(name, s)] }) ∨
        (Declares d ∧ ∃ c f, initDecl E x name m.counts d = (c, .ok f) ∧
          m₁ = { m with counts := c, fields := m.fields ++ [f] })) := by
  simp only [Props.packed, Bool.and_eq_true] at hpacked
  rw [initProps] at h
  cases hassign : assign x m name d (initDecl E x name m.counts d) with
  | mk m₁ r =>
    rw [hassign] at h
    cases r with
    | some e => cases h
    | none => exact ⟨hpacked.1, hpacked.2, m₁, h, assign_ok hself hpacked.1 hassign⟩

end Assign

def Field.hash : Field → Bool
  | .leaf _ text _ => text.head? = some '#'
  | .nest .. => false

/-- What is known about a type without a name, next to its fields. -/
structure Ano.Read (E : Env) (fields : List Field) (ano : Ano) : Prop where
  methods : ∀ p ∈ ano.methods, isClosureText p.2 = true ∧ E.closureErr p.2 = none
  hideId : ano.hideId = !(ano.idname.isSome || fields.any Field.hash)

mutual

def Field.Read (E : Env) (x : Ctx) : Field → Prop
  | .leaf _ text data => (∃ c, (initText E x c text).2 = .ok data) ∧ isSpecial text = false
  | .nest _ _ _ fields ano => readAll E x fields ∧ ano.Read E fields

def readAll (E : Env) (x : Ctx) : List Field → Prop
  | [] => True
  | f :: fs => f.Read E x ∧ readAll E x fs

end

theorem readAll_iff : readAll E x fs ↔ ∀ f ∈ fs, f.Read E x := by
  induction fs with
  | nil => simp [readAll]
  | cons f fs ih => simp [readAll, ih]

section Read

/-- The parts of a type without a name, while its fields are read. -/
structure Build.Read (E : Env) (x : Ctx) (m : Build) : Prop where
  fields : readAll E x m.fields
  methods : ∀ p ∈ m.methods, isClosureText p.2 = true ∧ E.closureErr p.2 = none

/-- If there is an Id definition, or a text which looks like one. -/
def Build.hashed (m : Build) : Bool := m.idname.isSome || m.fields.any Field.hash

theorem closureErr_of_closuresErr (hs : isClosureText s)
    (h : closuresErr E (.cons name (.str s) rest) = none) : E.closureErr s = none := by
  unfold closuresErr at h
  simp only [hs, if_true] at h
  exact (Option.or_eq_none_iff.mp h).1

theorem closuresErr_rest (h : closuresErr E (.cons name d rest) = none) :
    closuresErr E rest = none := by
  unfold closuresErr at h
  split at h
  · split_ifs at h
    · exact (Option.or_eq_none_iff.mp h).2
    · exact h
  · exact h

/-- What is known after the properties of a nested structure are read. -/
def ReadsProps (E : Env) (x : Ctx) (props : Props) : Prop :=
  ∀ m m', props.packed = true → closuresErr E props = none → initProps E x m props = (m', none) →
    m.Read E x → m'.Read E x ∧ m'.hashed = (m.hashed || hasIdText props)

theorem read_nest (arr : Bool) {props : Props} (hprops : ReadsProps E x.inner props)
    (hpacked : props.packed) (h : (initDecl E x name c (nestDecl arr props)).2 = .ok f) :
    f.Read E x.inner := by
  obtain ⟨hclosures, m, hm, rfl⟩ := initDecl_nest_ok h
  have hempty : (Build.empty c.refcount).Read E x.inner := ⟨trivial, by simp [Build.empty]⟩
  obtain ⟨hread, hhash⟩ := hprops _ _ hpacked hclosures hm hempty
  have hid : m.hashed = hasIdText props := hhash
  refine ⟨hread.fields, hread.methods, ?_⟩
  rw [Build.ano, ← hid]
  rfl

theorem readsProps_cons (hx : x.inner = x)
    (hd : ∀ c f, d.packed → Declares d → (initDecl E x name c d).2 = .ok f → f.Read E x)
    (hrest : ReadsProps E x rest) : ReadsProps E x (.cons name d rest) := by
  intro m m' hpacked hclosures h hm
  obtain ⟨hdpacked, hrpacked, m₁, h, hstep⟩ := initProps_cons_ok (hx ▸ rfl) hpacked h
  have hnext := hrest m₁ m' hrpacked (closuresErr_rest hclosures) h
  rcases hstep with ⟨rfl, -, rfl⟩ | ⟨s, rfl, hs, rfl⟩ | ⟨hdecl, c, f, hinit, rfl⟩
  · obtain ⟨hread, hhash⟩ := hnext ⟨hm.fields, hm.methods⟩
    refine ⟨hread, hhash.trans ?_⟩
    simp [Build.hashed, hasIdText]
  · have herr := closureErr_of_closuresErr hs hclosures
    have hmethods : ∀ p ∈ m.methods ++ [(name, s)],
        isClosureText p.2 = true ∧ E.closureErr p.2 = none := by
      intro p hp
      rcases List.mem_append.mp hp with hp | hp
      · exact hm.methods p hp
      · rw [List.mem_singleton.mp hp]
        exact ⟨hs, herr⟩
    obtain ⟨hread, hhash⟩ := hnext ⟨hm.fields, hmethods⟩
    have hhead : s.head? = some '|' := of_decide_eq_true hs
    refine ⟨hread, hhash.trans ?_⟩
    simp [Build.hashed, hasIdText, hhead]
  · have hf := hd m.counts f hdpacked hdecl (by rw [hinit])
    have hfields : readAll E x (m.fields ++ [f]) := by
      rw [readAll_iff]
      intro g hg
      rcases List.mem_append.mp hg with hg | hg
      · exact readAll_iff.mp hm.fields g hg
      · rw [List.mem_singleton.mp hg]
        exact hf
    obtain ⟨hread, hhash⟩ := hnext ⟨hfields, hm.methods⟩
    refine ⟨hread, hhash.trans ?_⟩
    rcases initDecl_ok (show (initDecl E x name m.counts d).2 = .ok f by rw [hinit]) with
      ⟨s, data, rfl, -, rfl⟩ | ⟨arr, props, rfl⟩
    · simp [Build.hashed, hasIdText, Field.hash, Bool.or_assoc]
    · obtain ⟨-, m, -, rfl⟩ := initDecl_nest_ok (show (initDecl E x name m.counts
        (nestDecl arr props)).2 = .ok f by rw [hinit])
      cases arr <;> simp [Build.hashed, hasIdText, Field.hash, nestDecl]

theorem read_initProps (hx : x.inner = x) : ∀ props : Props, ReadsProps E x props := by
  suffices h : Nesting E x (fun d => ∀ name c f, d.packed = true → Declares d →
    (initDecl E x name c d).2 = .ok f → f.Read E x) (ReadsProps E x) from h.props
  constructor
  case str =>
    intro s name c f _ hdecl h
    obtain ⟨data, htext, rfl⟩ := initDecl_str_ok h
    exact ⟨⟨c, htext⟩, declares_str.mp hdecl⟩
  case nest =>
    intro arr props hprops name c f hpacked _ h
    rw [← hx] at hprops ⊢
    exact read_nest arr hprops (by simpa using hpacked) h
  case corrupt => exact fun d hd name c f _ _ h => absurd h (hd name c f)
  case nil =>
    intro m m' _ _ h hm
    cases h
    exact ⟨hm, by simp [hasIdText]⟩
  case cons => exact fun name d rest hd hrest => readsProps_cons hx (hd name) hrest

end Read

end ThingsDB.Types
