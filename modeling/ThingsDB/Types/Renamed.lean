import ThingsDB.Types.Nested
import ThingsDB.Types.Reread

/-!
# Declarations after a rename

The declaration of every field of a type is read again after a rename. The text of a field is
read as before. For a nested structure this is so if all of it is packed, and if no text in it
is left with the old name of the type it belongs to.
-/

namespace ThingsDB.Types

open List

variable {E : Env} {x : Ctx} {c c' : Counts} {name old nname : Text} {f : Field} {fs : List Field}
  {tgt : Target} {own : TypeId} {m m' : Build} {d : Decl} {props rest : Props}

variable {g : Field} {S : Build → Prop} {data : Leaf}

section Erase

mutual

/-- A field without the packed data and the dependencies, with a change to its texts. -/
def Field.erase (g : Text → Text) : Field → Field
  | .leaf name text data => .leaf name (g text) data
  | .nest name arr _ fields ano =>
    .nest name arr (.many 0) (eraseAll g fields) { ano with deps := [] }

def eraseAll (g : Text → Text) : List Field → List Field
  | [] => []
  | f :: fs => f.erase g :: eraseAll g fs

end

def Field.bare (f : Field) : Field := f.erase id

/-- The specifications, flags and conditions of a field and of the fields nested in it. -/
def Field.meaning (f : Field) : Field := f.erase fun _ => []

theorem eraseAll_eq_map (g : Text → Text) (fs : List Field) :
    eraseAll g fs = fs.map (Field.erase g) := by
  induction fs with
  | nil => rfl
  | cons f fs ih => rw [eraseAll, ih, map_cons]

mutual

theorem erase_bare (g : Text → Text) : ∀ f : Field, (f.erase id).erase g = f.erase g
  | .leaf .. => rfl
  | .nest _ _ _ fields _ => by simp only [Field.erase, eraseAll_bare g fields]

theorem eraseAll_bare (g : Text → Text) :
    ∀ fs : List Field, eraseAll g (eraseAll id fs) = eraseAll g fs
  | [] => rfl
  | f :: fs => by simp only [eraseAll, erase_bare g f, eraseAll_bare g fs]

end

theorem meaning_of_bare (h : g.bare = f.bare) : g.meaning = f.meaning := by
  rw [Field.meaning, Field.meaning, ← erase_bare _ g, ← erase_bare _ f]
  exact congrArg (Field.erase fun _ => []) h

mutual

/-- The texts of a field and of the fields nested in it, with what they are read as. -/
def Field.leaves : Field → List (Text × Leaf)
  | .leaf _ text data => [(text, data)]
  | .nest _ _ _ fields _ => allLeaves fields

def allLeaves : List Field → List (Text × Leaf)
  | [] => []
  | f :: fs => f.leaves ++ allLeaves fs

end

mutual

theorem leaves_erase : ∀ f : Field, (f.erase id).leaves = f.leaves
  | .leaf .. => rfl
  | .nest _ _ _ fields _ => by simp only [Field.erase, Field.leaves, allLeaves_erase fields]

theorem allLeaves_erase : ∀ fs : List Field, allLeaves (eraseAll id fs) = allLeaves fs
  | [] => rfl
  | f :: fs => by simp only [eraseAll, allLeaves, leaves_erase f, allLeaves_erase fs]

end

theorem leaves_of_bare (h : g.bare = f.bare) : g.leaves = f.leaves := by
  rw [← leaves_erase g, ← leaves_erase f]
  exact congrArg Field.leaves h

theorem hash_erase (f : Field) : (f.erase id).hash = f.hash := by
  cases f <;> rfl

theorem any_hash_erase (fs : List Field) : (eraseAll id fs).any Field.hash = fs.any Field.hash := by
  rw [eraseAll_eq_map, any_map]
  exact congrArg fs.any (funext hash_erase)

mutual

theorem read_erase : ∀ f : Field, (f.erase id).Read E x ↔ f.Read E x
  | .leaf .. => Iff.rfl
  | .nest _ _ _ fields ano => by
    have hano : Ano.Read E (eraseAll id fields) { ano with deps := [] } ↔ ano.Read E fields := by
      constructor
      · exact fun h => ⟨h.methods, h.hideId.trans (by rw [any_hash_erase])⟩
      · exact fun h => ⟨h.methods, h.hideId.trans (by rw [any_hash_erase])⟩
    simp only [Field.erase, Field.Read, readAll_erase fields, hano]

theorem readAll_erase : ∀ fs : List Field, readAll E x (eraseAll id fs) ↔ readAll E x fs
  | [] => Iff.rfl
  | f :: fs => by simp only [eraseAll, readAll, read_erase f, readAll_erase fs]

end

theorem read_of_bare (h : g.bare = f.bare) (hg : g.Read E x) : f.Read E x := by
  have heq : g.erase id = f.erase id := h
  rw [← read_erase g, heq] at hg
  exact (read_erase f).mp hg

end Erase

section Ren

variable (tgt nname)

theorem ren_leaf (name text : Text) (data : Leaf) : ((Field.leaf name text data).ren tgt nname).1 =
    .leaf name ((renText tgt nname text data).getD text) data := by
  rw [Field.ren]
  cases renText tgt nname text data <;> rfl

theorem ren_name (f : Field) : (f.ren tgt nname).1.name = f.name := by
  cases f with
  | leaf name text data =>
    rw [ren_leaf]
    rfl
  | nest name arr raw fields ano => rfl

theorem length_renFields (fs : List Field) : (renFields tgt nname fs).1.length = fs.length := by
  induction fs with
  | nil => rfl
  | cons f fs ih => simp only [renFields, length_cons, ih]

mutual

theorem ren_lost : ∀ f : Field, (f.ren tgt nname).1.lost = f.lost
  | .leaf name text data => by
    rw [ren_leaf]
    rfl
  | .nest _ _ _ fields ano => by
    rw [Field.ren, Field.lost, Field.lost]
    exact renFields_lost ano.methods.length fields

theorem renFields_lost (methods : ℕ) : ∀ fs : List Field,
    fieldsLost methods (renFields tgt nname fs).1 = fieldsLost methods fs
  | [] => rfl
  | .leaf name text data :: fs => by
    rw [renFields]
    simp only [ren_leaf, fieldsLost, renFields_lost methods fs]
  | .nest name arr raw fields ano :: fs => by
    have hnest := ren_lost (.nest name arr raw fields ano)
    rw [Field.ren] at hnest
    rw [renFields, Field.ren]
    simp only [fieldsLost, length_renFields]
    rw [hnest]

end

def Leaf.names (tgt : Target) (data : Leaf) : Bool :=
  data.spec.target? = some tgt || data.nested.target? = some tgt

theorem renText_isSome (text : Text) (data : Leaf) :
    (renText tgt nname text data).isSome = data.names tgt := by
  unfold renText Leaf.names
  by_cases hspec : data.spec.target? = some tgt
  · rw [if_pos hspec]
    split <;> simp [hspec]
  · rw [if_neg hspec]
    by_cases hnested : data.nested.target? = some tgt
    · rw [if_pos hnested]
      simp only
      split <;> simp [hnested]
    · simp [hspec, hnested]

theorem renText_eq_none (text : Text) (data : Leaf) :
    renText tgt nname text data = none ↔ data.names tgt = false := by
  rw [← renText_isSome nname tgt text, Option.isSome_eq_false_iff, Option.isNone_iff_eq_none]

mutual

theorem ren_changes : ∀ f : Field,
    0 < (f.ren tgt nname).2 ↔ ∃ p ∈ f.leaves, p.2.names tgt
  | .leaf name text data => by
    have hsome := renText_isSome nname tgt text data
    rw [Field.ren]
    cases h : renText tgt nname text data with
    | none =>
      rw [h] at hsome
      simp [Field.leaves, ← hsome]
    | some t =>
      rw [h] at hsome
      simp [Field.leaves, ← hsome]
  | .nest _ _ _ fields _ => by
    rw [Field.ren, Field.leaves]
    exact renFields_changes fields

theorem renFields_changes : ∀ fs : List Field,
    0 < (renFields tgt nname fs).2 ↔ ∃ p ∈ allLeaves fs, p.2.names tgt
  | [] => by simp [renFields, allLeaves]
  | f :: fs => by
    simp only [renFields, allLeaves, Nat.add_pos_iff_pos_or_pos, ren_changes f,
      renFields_changes fs, mem_append, or_and_right, exists_or]

end

mutual

theorem ren_eq_self : ∀ f : Field, (∀ p ∈ f.leaves, p.2.names tgt = false) → (f.ren tgt nname).1 = f
  | .leaf name text data, h => by
    have hnone := (renText_eq_none nname tgt text data).mpr (h _ mem_cons_self)
    rw [ren_leaf, hnone, Option.getD_none]
  | .nest _ _ _ fields _, h => by
    rw [Field.ren]
    simp only [renFields_eq_self fields h]

theorem renFields_eq_self : ∀ fs : List Field, (∀ p ∈ allLeaves fs, p.2.names tgt = false) →
    (renFields tgt nname fs).1 = fs
  | [], _ => rfl
  | f :: fs, h => by
    rw [allLeaves] at h
    simp only [renFields]
    rw [ren_eq_self f fun p hp => h p (mem_append_left _ hp),
      renFields_eq_self fs fun p hp => h p (mem_append_right _ hp)]

end

mutual

theorem ren_meaning : ∀ f : Field, (f.ren tgt nname).1.meaning = f.meaning
  | .leaf name text data => by
    rw [ren_leaf]
    rfl
  | .nest _ _ _ fields _ => by
    rw [Field.ren, Field.meaning, Field.meaning, Field.erase, Field.erase, renFields_meaning fields]

theorem renFields_meaning : ∀ fs : List Field,
    eraseAll (fun _ => []) (renFields tgt nname fs).1 = eraseAll (fun _ => []) fs
  | [] => rfl
  | f :: fs => by
    have hf := ren_meaning f
    rw [Field.meaning, Field.meaning] at hf
    simp only [renFields, eraseAll, hf, renFields_meaning fs]

end

end Ren

variable {arr : Bool} {raw : Decl} {b : Field} {ano : Ano} {s : Text} {B : Prop}

section Build

theorem Rereads.imp {α : Type} {same same' : α → Prop} {broken broken' : Prop}
    {r : Except DeclError α} (h : Rereads same broken r) (hsame : ∀ a, same a → same' a)
    (hbroken : broken ↔ broken') : Rereads same' broken' r := by
  cases r with
  | ok a => exact ⟨hsame a h.1, fun hb => h.2 (hbroken.mpr hb)⟩
  | error e => exact hbroken.mp h

def result : Build × Option DeclError → Except DeclError Build
  | (m, none) => .ok m
  | (_, some e) => .error e

/-- Types without a name which are the same, apart from packed data and dependencies. -/
structure Build.Alike (m m' : Build) : Prop where
  fields : m'.fields.map Field.bare = m.fields.map Field.bare
  idname : m'.idname = m.idname
  methods : m'.methods = m.methods

def BrokenIn (E : Env) (own : TypeId) (tgt : Target) (x : Ctx) (ps : List (Text × Leaf)) : Prop :=
  ∃ p ∈ ps, Broken E own tgt x p.1 p.2

theorem brokenIn_append {ps qs : List (Text × Leaf)} :
    BrokenIn E own tgt x (ps ++ qs) ↔ BrokenIn E own tgt x ps ∨ BrokenIn E own tgt x qs := by
  simp only [BrokenIn, mem_append, or_and_right, exists_or]

theorem reread_create {B' : Prop} (hd : Declares d)
    (hmode : x.wrapOnly)
    (hf : Rereads (fun g => g.bare = b) B (initDecl E x name m.counts d).2)
    (hrest : ∀ c g, g.bare = b → Rereads S B'
      (result (initProps E x { m with counts := c, fields := m.fields ++ [g] } rest))) :
    Rereads S (B ∨ B') (result (initProps E x m (.cons name d rest))) := by
  rw [initProps, assign_declares hd hmode]
  cases hinit : initDecl E x name m.counts d with
  | mk c r =>
    rw [hinit] at hf
    cases r with
    | error e => exact Or.inl hf
    | ok g => exact (hrest c g hf.1).imp (fun _ h => h) (or_iff_right hf.2).symm

theorem closuresErr_ren (props : Props) :
    closuresErr (E.ren old nname) props = closuresErr E props := by
  fun_induction closuresErr E props with
  | case1 => rfl
  | case2 _ rest s hs ih =>
    rw [closuresErr, if_pos hs, ih]
    rfl
  | case3 _ rest s hs ih => rw [closuresErr, if_neg hs, ih]
  | case4 _ d rest hd ih =>
    rw [closuresErr, ih]
    exact hd

theorem reread_nest (arr : Bool) (hclosures : closuresErr E props = none)
    (hprops : Rereads S B (result (initProps E x.inner (.empty c.refcount) props)))
    (hS : ∀ m, S m → (Field.nest name arr (nestDecl arr props) m.fields (m.ano props)).bare = b) :
    Rereads (fun g => g.bare = b) B (initDecl E x name c (nestDecl arr props)).2 := by
  rw [initDecl_nest, hclosures]
  cases hm : initProps E x.inner (.empty c.refcount) props with
  | mk m r =>
    rw [hm] at hprops
    cases r with
    | some e => exact hprops
    | none => exact ⟨hS m hprops.1, hprops.2⟩

end Build

/-- The text of a field, with the new name if it has the old one. -/
theorem reread_str (hR : Renames E tgt old nname) (hx : x.On E own)
    (h : (initText E x c s).2 = .ok data) (hc : x.self ≠ none → c' = c) (name : Text) :
    Rereads (fun g => g.bare = .leaf name ((renText tgt nname s data).getD s) data)
      (Broken E own tgt x s data) (initDecl (E.ren old nname) (x.ren old nname) name c'
        (.str ((renText tgt nname s data).getD s))).2 := by
  have hread := reread_text hR hx h hc
  rw [initDecl_str]
  generalize (initText (E.ren old nname) (x.ren old nname) c'
    ((renText tgt nname s data).getD s)).2 = r at hread ⊢
  cases r with
  | error e => exact hread
  | ok data' =>
    obtain ⟨rfl, hnot⟩ := hread
    exact ⟨rfl, hnot⟩

section Raw

/-- The properties of a structure, which are not changed, are read again. -/
def RereadsProps (E : Env) (x : Ctx) (own : TypeId) (tgt : Target) (old nname : Text)
    (props : Props) : Prop :=
  ∀ m m' m₁, props.packed = true → initProps E x m props = (m₁, none) → m.Alike m' →
    ∃ new, m₁.fields = m.fields ++ new ∧ ((∀ p ∈ allLeaves new, p.2.names tgt = false) →
      Rereads m₁.Alike (BrokenIn E own tgt x (allLeaves new))
        (result (initProps (E.ren old nname) (x.ren old nname) m' props)))

/-- A declaration, which is not changed, is read again. -/
def RereadsDecl (E : Env) (x : Ctx) (own : TypeId) (tgt : Target) (old nname : Text)
    (d : Decl) : Prop :=
  ∀ name c c' f, d.packed = true → (initDecl E x name c d).2 = .ok f →
    (∀ p ∈ f.leaves, p.2.names tgt = false) →
    Rereads (fun g => g.bare = f.bare) (BrokenIn E own tgt x f.leaves)
      (initDecl (E.ren old nname) (x.ren old nname) name c' d).2

theorem rereadsProps_cons (hself : x.inner = x) (hd : RereadsDecl E x own tgt old nname d)
    (hrest : RereadsProps E x own tgt old nname rest) :
    RereadsProps E x own tgt old nname (.cons name d rest) := by
  intro m m' m₂ hpacked h hm
  have hnone : x.self = none := hself ▸ rfl
  have hmode : (x.ren old nname).wrapOnly = true := show x.wrapOnly = true from hself ▸ rfl
  obtain ⟨hdpacked, hrpacked, m₁, h, hstep⟩ := initProps_cons_ok hnone hpacked h
  rcases hstep with ⟨rfl, hid, rfl⟩ | ⟨s, rfl, hs, rfl⟩ | ⟨hdecl, c, f, hinit, rfl⟩
  · obtain ⟨new, hnew, hreread⟩ := hrest _ { m' with idname := some name } m₂ hrpacked h
      ⟨hm.fields, rfl, hm.methods⟩
    refine ⟨new, hnew, fun hleaves => ?_⟩
    rw [initProps, assign, if_pos rfl, hm.idname.trans hid]
    exact hreread hleaves
  · obtain ⟨new, hnew, hreread⟩ := hrest _ { m' with methods := m'.methods ++ [(name, s)] } m₂
      hrpacked h ⟨hm.fields, hm.idname, by rw [hm.methods]⟩
    refine ⟨new, hnew, fun hleaves => ?_⟩
    have hid : s ≠ ['#'] := by
      rintro rfl
      cases hs
    rw [initProps, assign, if_neg hid, if_pos ⟨hnone, hs⟩]
    exact hreread hleaves
  · have hf : (initDecl E x name m.counts d).2 = .ok f := by rw [hinit]
    have halike : ∀ c' g, g.bare = f.bare →
        Build.Alike { m with counts := c, fields := m.fields ++ [f] }
          { m' with counts := c', fields := m'.fields ++ [g] } := by
      intro c' g hg
      refine ⟨?_, hm.idname, hm.methods⟩
      simp only [map_append, hm.fields, map_cons, hg, map_nil]
    obtain ⟨new, hnew, -⟩ := hrest _ _ m₂ hrpacked h (halike c f rfl)
    refine ⟨f :: new, by simp [hnew], fun hleaves => ?_⟩
    rw [allLeaves] at hleaves
    have hreads := hd name _ m'.counts f hdpacked hf
      fun p hp => hleaves p (mem_append_left _ hp)
    rw [allLeaves]
    refine Rereads.imp (reread_create hdecl hmode hreads ?_) (fun _ h => h) brokenIn_append.symm
    intro c' g hg
    obtain ⟨new', hnew', hreread⟩ := hrest _ _ m₂ hrpacked h (halike c' g hg)
    obtain rfl : new' = new := append_cancel_left (hnew'.symm.trans hnew)
    exact hreread fun p hp => hleaves p (mem_append_right _ hp)

theorem rereadsDecl_nest (c' : Counts) (hprops : RereadsProps E x.inner own tgt old nname props)
    (hpacked : props.packed) (arr : Bool) (h : (initDecl E x name c (nestDecl arr props)).2 = .ok f)
    (hleaves : ∀ p ∈ f.leaves, p.2.names tgt = false) :
    Rereads (fun g => g.bare = f.bare) (BrokenIn E own tgt x.inner f.leaves)
      (initDecl (E.ren old nname) (x.ren old nname) name c' (nestDecl arr props)).2 := by
  obtain ⟨hclosures, m, hm, rfl⟩ := initDecl_nest_ok h
  obtain ⟨new, hnew, hreread⟩ := hprops _ (.empty c'.refcount) m hpacked hm ⟨rfl, rfl, rfl⟩
  have hfields : m.fields = new := hnew
  rw [Field.leaves, hfields] at hleaves ⊢
  refine reread_nest arr ((closuresErr_ren props).trans hclosures) (hreread hleaves) ?_
  intro m' hm'
  have hmap : m'.fields.map (Field.erase id) = m.fields.map (Field.erase id) := hm'.fields
  simp only [Field.bare, Field.erase, eraseAll_eq_map, Build.ano, hm'.idname, hm'.methods, hmap,
    hfields]

theorem rereadsProps (hR : Renames E tgt old nname) (hx : x.On E own) (hself : x.inner = x) :
    ∀ props : Props, RereadsProps E x own tgt old nname props := by
  suffices h : Nesting E x (RereadsDecl E x own tgt old nname) (RereadsProps E x own tgt old nname)
    from h.props
  constructor
  case str =>
    intro s name c c' f _ h hleaves
    obtain ⟨data, htext, rfl⟩ := initDecl_str_ok h
    have hnone : x.self = none := hself ▸ rfl
    have hren : renText tgt nname s data = none :=
      (renText_eq_none nname tgt s data).mpr (hleaves _ mem_cons_self)
    have hread := reread_str hR hx htext (fun h => absurd hnone h : x.self ≠ none → c' = c) name
    rw [hren, Option.getD_none] at hread
    exact hread.imp (fun _ h => h) (by simp [BrokenIn, Field.leaves])
  case nest =>
    intro arr props hprops name c c' f hpacked h hleaves
    rw [← hself] at hprops
    have hread := rereadsDecl_nest c' hprops (by simpa using hpacked) arr h hleaves
    rwa [hself] at hread
  case corrupt => exact fun d hd name c c' f _ h => absurd h (hd name c f)
  case nil =>
    intro m m' m₁ _ h hm
    cases h
    refine ⟨[], by simp, fun _ => ⟨hm, ?_⟩⟩
    simp [BrokenIn, allLeaves]
  case cons => exact fun name d rest hd hrest => rereadsProps_cons hself hd hrest

end Raw

section Packed

/-- A text which would not be taken for a field. -/
def Field.special : Field → Bool
  | .leaf _ text _ => isSpecial text
  | .nest .. => false

section

variable (hR : Renames E tgt old nname) (hx : x.On E own)

include hR hx

/-- A text with the new name is taken for a field as the one with the old name. -/
theorem special_renText (h : (initText E x c s).2 = .ok data) (hs : isSpecial s = false) :
    isSpecial ((renText tgt nname s data).getD s) = false ∧
      (((renText tgt nname s data).getD s).head? = some '#' ↔ s.head? = some '#') := by
  cases ht : renText tgt nname s data with
  | none => exact ⟨hs, Iff.rfl⟩
  | some t =>
    rw [Option.getD_some]
    obtain ⟨sc, w, rest, tail, hscan, hw, hword, rfl⟩ := renText_some hR hx h ht
    have hhead : ∀ {a : Char}, (flagChars s ++ (sc.withWord (nname ++ tail)).body).head? = some a →
        a ≠ '|' ∧ a ≠ '#' := by
      intro a ha
      have hcases := mem_of_head_text hR.new.isName ha
      constructor
      · rintro rfl
        revert hcases
        decide
      · rintro rfl
        revert hcases
        decide
    have hword' : s.head? ≠ some '#' := by
      intro hhash
      have hnot := scan_hash hscan hhash
      obtain ⟨a, ha, hchar⟩ := head_of_isName hw rest
      rw [hword, ha] at hnot
      cases hnot
      cases hchar
    generalize flagChars s ++ (sc.withWord (nname ++ tail)).body = t at hhead ⊢
    have hhash : t.head? ≠ some '#' := fun heq => (hhead heq).2 rfl
    have hbar : t.head? ≠ some '|' := fun heq => (hhead heq).1 rfl
    constructor
    · simp only [isSpecial, isClosureText, Bool.or_eq_false_iff, decide_eq_false_iff_not]
      refine ⟨?_, hbar⟩
      rintro rfl
      exact hhash rfl
    · exact ⟨fun heq => absurd heq hhash, fun heq => absurd heq hword'⟩

theorem ren_special (h : f.Read E x) :
    (f.ren tgt nname).1.special = false ∧ (f.ren tgt nname).1.hash = f.hash := by
  cases f with
  | leaf name text data =>
    rw [ren_leaf]
    obtain ⟨⟨c, htext⟩, hs⟩ := h
    obtain ⟨hspecial, hhash⟩ := special_renText hR hx htext hs
    exact ⟨hspecial, by simp only [Field.hash, hhash]⟩
  | nest name arr raw fields ano => exact ⟨rfl, rfl⟩

theorem renFields_special (h : readAll E x fs) :
    (∀ g ∈ (renFields tgt nname fs).1, g.special = false) ∧
      (renFields tgt nname fs).1.any Field.hash = fs.any Field.hash := by
  induction fs with
  | nil => exact ⟨by simp [renFields], rfl⟩
  | cons f fs ih =>
    obtain ⟨hspecial, hhash⟩ := ren_special hR hx h.1
    obtain ⟨hall, hany⟩ := ih h.2
    simp only [renFields, any_cons, hhash, hany, forall_mem_cons]
    exact ⟨⟨hspecial, hall⟩, trivial⟩

end

section Props

variable {methods : List (Text × Text)}

theorem initProps_methods (hself : x.self = none) (hms : ∀ p ∈ methods, isClosureText p.2)
    (m : Build) : initProps E x m (methods.foldr (fun p rest => .cons p.1 (.str p.2) rest) .nil) =
      ({ m with methods := m.methods ++ methods }, none) := by
  induction methods generalizing m with
  | nil => simp [initProps]
  | cons p ps ih =>
    have hp := hms p mem_cons_self
    have hid : p.2 ≠ ['#'] := by
      intro heq
      rw [heq] at hp
      cases hp
    rw [foldr_cons, initProps, assign, if_neg hid, if_pos ⟨hself, hp⟩]
    simp only
    rw [ih fun q hq => hms q (mem_cons_of_mem _ hq)]
    simp

theorem closuresErr_methods (hms : ∀ p ∈ methods, isClosureText p.2 ∧ E.closureErr p.2 = none) :
    closuresErr E (methods.foldr (fun p rest => .cons p.1 (.str p.2) rest) .nil) = none := by
  induction methods with
  | nil => rfl
  | cons p ps ih =>
    obtain ⟨hp, herr⟩ := hms p mem_cons_self
    rw [foldr_cons, closuresErr]
    simp only [hp, herr, if_true, Option.none_or]
    exact ih fun q hq => hms q (mem_cons_of_mem _ hq)

theorem hasIdText_methods (hms : ∀ p ∈ methods, isClosureText p.2) :
    hasIdText (methods.foldr (fun p rest => .cons p.1 (.str p.2) rest) .nil) = false := by
  induction methods with
  | nil => rfl
  | cons p ps ih =>
    have hp : p.2.head? = some '|' := of_decide_eq_true (hms p mem_cons_self)
    rw [foldr_cons, hasIdText]
    simp only [hp]
    exact ih fun q hq => hms q (mem_cons_of_mem _ hq)

theorem closuresErr_fields
    (hms : ∀ p ∈ methods, isClosureText p.2 ∧ E.closureErr p.2 = none) {gs : List Field}
    (hgs : ∀ g ∈ gs, g.special = false) : closuresErr E (fieldProps methods gs) = none := by
  induction gs with
  | nil => exact closuresErr_methods hms
  | cons g gs ih =>
    have hrest := ih fun q hq => hgs q (mem_cons_of_mem _ hq)
    have hg := hgs g mem_cons_self
    rw [fieldProps]
    cases g with
    | leaf name text data =>
      simp only [Field.special, isSpecial, Bool.or_eq_false_iff] at hg
      rw [Field.decl, closuresErr]
      simp only [hg.2]
      exact hrest
    | nest name arr raw fields ano =>
      rw [Field.decl]
      cases arr
      · exact hrest
      · exact hrest

theorem hasIdText_fields (hms : ∀ p ∈ methods, isClosureText p.2) (gs : List Field) :
    hasIdText (fieldProps methods gs) = gs.any Field.hash := by
  induction gs with
  | nil => exact hasIdText_methods hms
  | cons g gs ih =>
    rw [fieldProps, any_cons, ← ih]
    cases g with
    | leaf name text data => rfl
    | nest name arr raw fields ano =>
      rw [Field.decl]
      cases arr
      · rfl
      · rfl

end Props

theorem declares_decl (h : g.special = false) : Declares g.decl := by
  cases g with
  | leaf name text data => exact Or.inl ⟨text, by rw [Field.decl], h⟩
  | nest name arr raw fields ano => exact Or.inr ⟨arr, _, by rw [Field.decl, nestDecl]⟩

def packedProps (idname : Option Text) (props : Props) : Props :=
  idname.elim props fun name => .cons name (.str ['#']) props

theorem decl_nest : (Field.nest name arr raw fs ano).decl =
    nestDecl arr (packedProps ano.idname (fieldProps ano.methods fs)) := by
  rw [Field.decl]
  rfl

theorem closuresErr_packed (idname : Option Text) (props : Props) :
    closuresErr E (packedProps idname props) = closuresErr E props := by
  cases idname with
  | none => rfl
  | some name =>
    rw [packedProps, Option.elim_some, closuresErr]
    rfl

theorem hasIdText_packed (idname : Option Text) (props : Props) :
    hasIdText (packedProps idname props) = (idname.isSome || hasIdText props) := by
  cases idname with
  | none => rfl
  | some name => simp [packedProps, hasIdText]

theorem initProps_packed (idname : Option Text) (props : Props) (rc : Target → ℤ) :
    initProps E x (.empty rc) (packedProps idname props) =
      initProps E x { Build.empty rc with idname := idname } props := by
  cases idname with
  | none => rfl
  | some name =>
    rw [packedProps, Option.elim_some, initProps, assign, if_pos rfl]
    rfl

/-- What a packed structure should be read as. -/
structure Build.Packed (tgt : Target) (nname : Text) (m : Build) (fs : List Field)
    (methods : List (Text × Text)) (m' : Build) : Prop where
  fields : m'.fields.map Field.bare = m.fields.map Field.bare ++
    (renFields tgt nname fs).1.map Field.bare
  idname : m'.idname = m.idname
  methods : m'.methods = m.methods ++ methods

mutual

/-- A field of a packed structure is read again. -/
theorem reread_field (hR : Renames E tgt old nname) (hx : x.On E own) (hself : x.inner = x) :
    ∀ f : Field, f.Read E x → ∀ c',
      Rereads (fun g => g.bare = (f.ren tgt nname).1.bare) (BrokenIn E own tgt x f.leaves)
        (initDecl (E.ren old nname) (x.ren old nname) f.name c' (f.ren tgt nname).1.decl).2
  | .leaf name text data, h, c' => by
    obtain ⟨⟨c, htext⟩, -⟩ := h
    have hnone : x.self = none := hself ▸ rfl
    rw [ren_leaf, Field.decl]
    exact (reread_str hR hx htext (fun h => absurd hnone h) name).imp (fun _ h => h)
      (by simp [BrokenIn, Field.leaves])
  | .nest name arr raw fields ano, h, c' => by
    obtain ⟨hfields, hano⟩ := h
    have hms : ∀ p ∈ ano.methods, isClosureText p.2 = true := fun p hp => (hano.methods p hp).1
    obtain ⟨hspecial, hhash⟩ := renFields_special hR hx hfields
    have hctx : (x.ren old nname).inner = x.ren old nname := by
      conv_rhs => rw [← hself]
      rfl
    rw [Field.ren, Field.leaves]
    simp only
    rw [decl_nest]
    refine reread_nest arr ?_ ?_ ?_ (S := Build.Packed tgt nname
      { Build.empty c'.refcount with idname := ano.idname } fields ano.methods)
    · rw [closuresErr_packed, closuresErr_ren]
      exact closuresErr_fields hano.methods hspecial
    · rw [initProps_packed, hctx]
      exact reread_fields hR hx hself fields hfields hms _
    · intro m hm
      have hmap : m.fields.map (Field.erase id) =
        (renFields tgt nname fields).1.map (Field.erase id) := hm.fields
      have hmethods : m.methods = ano.methods := hm.methods
      have hidname : m.idname = ano.idname := hm.idname
      simp only [Field.name, Field.bare, Field.erase, eraseAll_eq_map, hmap, Build.ano, hidname,
        hmethods, hasIdText_packed, hasIdText_fields hms, hhash, hano.hideId]

/-- The fields and methods of a packed structure are read again. -/
theorem reread_fields (hR : Renames E tgt old nname) (hx : x.On E own) (hself : x.inner = x) :
    ∀ fs : List Field, readAll E x fs → ∀ {methods : List (Text × Text)},
      (∀ p ∈ methods, isClosureText p.2) → ∀ m : Build,
      Rereads (Build.Packed tgt nname m fs methods) (BrokenIn E own tgt x (allLeaves fs))
        (result (initProps (E.ren old nname) (x.ren old nname) m
          (fieldProps methods (renFields tgt nname fs).1)))
  | [], _, methods, hms, m => by
    have hnone : (x.ren old nname).self = none := (hself ▸ rfl : x.self = none)
    rw [renFields, fieldProps, initProps_methods hnone hms]
    refine ⟨⟨by simp [renFields], rfl, rfl⟩, by simp [BrokenIn, allLeaves]⟩
  | f :: fs, h, methods, hms, m => by
    obtain ⟨hf, hfs⟩ := h
    have hmode : (x.ren old nname).wrapOnly = true := (hself ▸ rfl : x.wrapOnly = true)
    have hspecial := (ren_special hR hx hf).1
    rw [renFields, allLeaves]
    simp only
    rw [fieldProps, ren_name]
    refine Rereads.imp (reread_create (declares_decl hspecial) hmode
      (reread_field hR hx hself f hf m.counts) ?_) (fun _ h => h) brokenIn_append.symm
    intro c g hg
    refine (reread_fields hR hx hself fs hfs hms _).imp (fun m' hm' => ?_) Iff.rfl
    refine ⟨?_, hm'.idname, hm'.methods⟩
    rw [hm'.fields]
    simp [renFields, hg]

end

end Packed

section Declared

/-- The declaration of a field is packed data or a text, and is read as the field. -/
structure Field.Reads (f : Field) (E : Env) (x : Ctx) (c : Counts) : Prop where
  packed : f.declared.packed = true
  reads : ∃ g, (initDecl E x f.name c f.declared).2 = .ok g ∧ g.bare = f.bare

/-- What is lost by a rename: a nested structure which is packed again but not completely, or a
text in it which is broken. -/
def Field.Damaged (E : Env) (own : TypeId) (tgt : Target) (x : Ctx) : Field → Prop
  | .leaf .. => False
  | f@(.nest ..) => (f.lost ≠ 0 ∧ ∃ p ∈ f.leaves, p.2.names tgt = true) ∨
      BrokenIn E own tgt x.inner f.leaves

theorem renamed_nest (name : Text) (arr : Bool) (raw : Decl) (fields : List Field) (ano : Ano) :
    (Field.nest name arr raw fields ano).renamed tgt nname =
      .nest name arr (if 0 < (renFields tgt nname fields).2 then
        (unpack (Field.nest name arr raw (renFields tgt nname fields).1 ano).toPk).getD
          (.other "mpdata") else raw) (renFields tgt nname fields).1 ano := by
  unfold Field.renamed
  rw [Field.ren]
  simp only
  split_ifs
  · rfl
  · rfl

theorem Ctx.On.inner (h : x.On E own) : x.inner.On E own := ⟨h.name, Or.inr ⟨rfl, rfl⟩⟩

theorem initDecl_inner (arr : Bool) (props : Props) :
    initDecl E x.inner name c (nestDecl arr props) = initDecl E x name c (nestDecl arr props) := by
  rw [initDecl_nest, initDecl_nest]
  rfl

theorem reread_packed {fields : List Field} (hR : Renames E tgt old nname) (hx : x.On E own)
    (hf : (Field.nest name arr raw fields ano).Read E x.inner) :
    Rereads (fun g => g.bare = (Field.nest name arr raw (renFields tgt nname fields).1 ano).bare)
      ((Field.nest name arr raw fields ano).lost ≠ 0 ∨
        BrokenIn E own tgt x.inner (allLeaves fields))
      (initDecl (E.ren old nname) (x.ren old nname) name c
        ((unpack (Field.nest name arr raw (renFields tgt nname fields).1 ano).toPk).getD
          (.other "mpdata"))).2 := by
  have hlost := ren_lost nname tgt (.nest name arr raw fields ano)
  rw [Field.ren] at hlost
  rw [unpack_toPk, hlost]
  split_ifs with hzero
  · have hread := reread_field hR hx.inner rfl _ hf c
    rw [Option.getD_some]
    rw [Field.ren, Field.leaves] at hread
    simp only at hread
    rw [decl_nest] at hread ⊢
    have hctx : (x.ren old nname).inner = x.inner.ren old nname := rfl
    rw [← hctx, initDecl_inner] at hread
    exact hread.imp (fun _ h => h) (or_iff_right (not_not.mpr hzero)).symm
  · exact Or.inl hzero

/-- The declaration of a field is read again after a rename, if it is not damaged. -/
theorem reread_renamed (hR : Renames E tgt old nname) (hx : x.On E own) (hself : x.self = some own)
    (h : f.Reads E x c) :
    Rereads (fun g => g.bare = (f.renamed tgt nname).bare) (f.Damaged E own tgt x)
      (initDecl (E.ren old nname) (x.ren old nname) f.name c (f.renamed tgt nname).declared).2 := by
  obtain ⟨hpacked, g, hg, hbare⟩ := h
  cases f with
  | leaf name text data =>
    rcases initDecl_ok hg with ⟨s, data', heq, htext, rfl⟩ | ⟨arr, props, heq⟩
    · cases heq
      cases hbare
      have hren : (Field.leaf name text data).renamed tgt nname =
          .leaf name ((renText tgt nname text data).getD text) data := by
        unfold Field.renamed
        rw [Field.ren]
        cases renText tgt nname text data <;> rfl
      rw [hren]
      refine (reread_str hR hx htext (fun _ => rfl) name).imp (fun _ h => h) ?_
      simp [Broken, hself, Field.Damaged]
    · cases arr <;> cases heq
  | nest name arr raw fields ano =>
    rcases initDecl_ok hg with ⟨s, data', -, -, rfl⟩ | ⟨arr', props, hraw⟩
    · cases hbare
    · have hdecl : (Field.nest name arr raw fields ano).declared = raw := rfl
      rw [hdecl] at hraw hg hpacked
      subst hraw
      have hprops : props.packed = true := by
        cases arr' <;> simpa [nestDecl, Decl.packed] using hpacked
      have hinner : x.inner.inner = x.inner := rfl
      have hleaves := leaves_of_bare hbare
      rw [renamed_nest]
      by_cases hnames : ∃ p ∈ allLeaves fields, p.2.names tgt = true
      · -- the structure is packed again
        have hf := read_of_bare hbare (read_nest arr' (read_initProps hinner props) hprops hg)
        rw [if_pos ((renFields_changes nname tgt fields).mpr hnames)]
        refine (reread_packed hR hx hf).imp (fun _ h => h) ?_
        simp [Field.Damaged, Field.leaves, hnames]
      · have hnot : ∀ p ∈ allLeaves fields, p.2.names tgt = false :=
          fun p hp => Bool.eq_false_iff.mpr fun h => hnames ⟨p, hp, h⟩
        rw [if_neg (fun h => hnames ((renFields_changes nname tgt fields).mp h)),
          renFields_eq_self nname tgt fields hnot]
        have hread := rereadsDecl_nest c (rereadsProps hR hx.inner hinner props) hprops arr' hg
          (hleaves ▸ hnot)
        rw [hleaves, hbare] at hread
        refine hread.imp (fun _ h => h) ?_
        simp only [Field.Damaged, Field.leaves, hnames, and_false, false_or]

end Declared

end ThingsDB.Types
