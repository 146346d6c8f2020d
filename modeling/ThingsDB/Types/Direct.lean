import ThingsDB.Types.Schema

/-!
# Direct specifications

A type depends directly on another one if it has a field with the other type for its
specification, without a `?`. What `field__init` has checked if it accepts such a declaration,
and where it does not return.
-/

namespace ThingsDB.Types

variable {E : Env} {x : Ctx} {c c' : Counts} {s : Text} {sc : Scan} {leaf : Leaf} {d : TypeId}
variable {r : Counts × Except DeclError Field} {code : Code} {cond : Cond} {i : TypeId} {D : Decl}
  {props : Props} {name : Text}

section Text

theorem fieldMap_code {word : Text} {b : Base} (h : fieldMap word = some b) :
    (FSpec.mk (.plain b) false).target? = none := by
  have hall : ∀ p ∈ fieldMapping, (FSpec.mk (.plain p.2) false).target? = none := by decide
  exact hall (word, b) (mem_fieldMapping h)

theorem found_eq (h : found sc code cond = .ok leaf) :
    leaf = ⟨(place sc code).1, setNested (place sc code).1 (place sc code).2, sc.flags, cond⟩ := by
  unfold found at h
  simp only at h
  split at h
  · cases h
  · cases h
  · cases h
    rfl

theorem found_spec (h : found sc code cond = .ok leaf) : leaf.spec = (place sc code).1 := by
  rw [found_eq h]

theorem direct?_eq_some {f : FSpec} (h : f.direct? = some d) :
    f.code = .plain (.typeId d) ∧ f.nillable = false := by
  unfold FSpec.direct? at h
  split at h
  · cases h
    exact ⟨rfl, rfl⟩
  · cases h

theorem place_direct (h : (place sc code).1.direct? = some d) :
    sc.isDirect ∧ code = .plain (.typeId d) := by
  obtain ⟨hcode, hnil⟩ := direct?_eq_some h
  unfold place at hcode hnil
  cases ho : sc.outer with
  | plain =>
    simp only [ho, Outer.code] at hcode hnil
    subst hcode
    simpa [Scan.isDirect, ho] using hnil
  | arr => simp [ho, Outer.code] at hcode
  | set => simp [ho, Outer.code] at hcode
  | restricted => simp [ho, Outer.code] at hcode

theorem found_direct (h : found sc code cond = .ok leaf)
    (hd : leaf.spec.direct? = some d) : sc.isDirect ∧ code = .plain (.typeId d) :=
  place_direct (found_spec h ▸ hd)

/-- A text which names a type directly. -/
def namesDirectly (name : Text) (s : Text) : Bool :=
  match scan s with
  | .ok sc => sc.isDirect && sc.word = name
  | .error _ => false

/-- A type of another name which passes `field__dep_check`. -/
def Checked (E : Env) (x : Ctx) (d : TypeId) : Prop :=
  E.depCheck x.self d = some false ∧ ∃ word, word ≠ x.name ∧ E.typeByName word = some d

theorem initSelf_direct (hself : x.self = some i) (h : (initSelf x c s sc).2 = .ok leaf)
    (hd : leaf.spec.direct? = some d) : x.wrapOnly ∧ sc.isDirect := by
  unfold initSelf at h
  rw [hself] at h
  simp only at h
  split_ifs at h with h₁ h₂
  obtain ⟨hdirect, -⟩ := found_direct h hd
  refine ⟨?_, hdirect⟩
  by_contra hwpo
  exact h₁ ⟨hdirect, by simpa using hwpo⟩

/-- What the word of a declaration can be: one which is rejected, a type or an enumerator. -/
theorem initName_cases (E : Env) (x : Ctx) (c : Counts) (s : Text) (sc : Scan) :
    (∃ e, initName E x c s sc = (c, .error e) ∧
      (e ≠ .diverges ∨ ∃ dep, depErr E x s sc dep = some e)) ∨
    (∃ dep, E.typeByName sc.word = some dep ∧ depErr E x s sc dep = none ∧
      initName E x c s sc = (c.push (.type dep), found sc (.plain (.typeId dep)) .none)) ∨
    ∃ en, E.typeByName sc.word = none ∧ E.enumByName sc.word = some en ∧ sc.outer ≠ .set ∧
      initName E x c s sc = (c.push (.enum en), found sc (.plain (.enumId en)) .none) := by
  unfold initName
  cases htype : E.typeByName sc.word with
  | some dep =>
    simp only
    cases herr : depErr E x s sc dep with
    | some e => exact .inl ⟨e, rfl, .inr ⟨dep, herr⟩⟩
    | none => exact .inr (.inl ⟨dep, rfl, herr, rfl⟩)
  | none =>
    cases henum : E.enumByName sc.word with
    | none => exact .inl ⟨_, rfl, .inl (by split <;> simp)⟩
    | some en =>
      by_cases hset : sc.outer = .set
      · exact .inl ⟨_, if_pos hset, .inl (by simp)⟩
      · exact .inr (.inr ⟨en, rfl, rfl, hset, if_neg hset⟩)

theorem initName_direct (hname : sc.word ≠ x.name) (h : (initName E x c s sc).2 = .ok leaf)
    (hd : leaf.spec.direct? = some d) : Checked E x d := by
  obtain ⟨e, heq, -⟩ | ⟨dep, htype, herr, heq⟩ | ⟨en, -, -, -, heq⟩ := initName_cases E x c s sc
  all_goals rw [heq] at h
  · cases h
  · obtain ⟨hdirect, hcode⟩ := found_direct h hd
    obtain rfl : dep = d := by simpa using hcode
    refine ⟨?_, sc.word, hname, htype⟩
    rw [depErr, if_pos hdirect] at herr
    cases hcheck : E.depCheck x.self dep with
    | none => rw [hcheck] at herr; cases herr
    | some b =>
      cases b with
      | true => rw [hcheck] at herr; cases herr
      | false => rfl
  · obtain ⟨-, hcode⟩ := found_direct h hd
    cases hcode

theorem initEnumDefault_direct (h : (initEnumDefault E c sc).2 = .ok leaf) :
    leaf.spec.direct? = none := by
  by_contra hne
  obtain ⟨d, hd⟩ := Option.ne_none_iff_exists'.mp hne
  unfold initEnumDefault at h
  simp only at h
  split at h
  · split_ifs at h
    split at h <;> cases h
  · split at h
    · cases h
    · cases h
    · cases h
    · split_ifs at h
      obtain ⟨-, hcode⟩ := found_direct h hd
      cases hcode

theorem initCond_spec {r : Except Ex (CondSpec × Info)} (h : initCond sc r = .ok leaf) :
    leaf.spec.direct? = none ∧ (leaf.spec.target?).or leaf.nested.target? = none := by
  unfold initCond at h
  split at h
  · cases h
  · next spec i =>
    cases h
    cases spec <;> exact ⟨rfl, rfl⟩

theorem initWord_direct (hself : x.self = some i) (hscan : scan s = .ok sc)
    (h : (initWord E x c s sc).2 = .ok leaf) (hd : leaf.spec.direct? = some d) :
    (x.wrapOnly ∧ namesDirectly x.name s) ∨ Checked E x d := by
  rcases initWord_cases E x c s sc with
    ⟨r, heq⟩ | ⟨b, hmap, heq⟩ | ⟨-, heq | ⟨hname, heq⟩ | ⟨hname, heq⟩⟩
  · rw [heq] at h
    simp [(initCond_spec h).1] at hd
  · rw [heq] at h
    obtain ⟨-, hcode⟩ := found_direct h hd
    have htarget := fieldMap_code hmap
    rw [hcode] at htarget
    cases htarget
  · rw [heq] at h
    simp [initEnumDefault_direct h] at hd
  · rw [heq] at h
    obtain ⟨hwpo, hdirect⟩ := initSelf_direct hself h hd
    exact Or.inl ⟨hwpo, by simp [namesDirectly, hscan, hdirect, hname]⟩
  · rw [heq] at h
    exact Or.inr (initName_direct hname h hd)

/-- A direct specification which is accepted for a type with a name. -/
theorem initText_direct (hself : x.self = some i) (h : (initText E x c s).2 = .ok leaf)
    (hd : leaf.spec.direct? = some d) : (x.wrapOnly ∧ namesDirectly x.name s) ∨ Checked E x d := by
  unfold initText at h
  cases hscan : scan s with
  | error e => rw [hscan] at h; cases h
  | ok sc =>
    rw [hscan] at h
    simp only at h
    split at h
    · next outer _ hcode =>
      cases h
      obtain ⟨hplain, -⟩ := direct?_eq_some hd
      change outer = _ at hplain
      subst hplain
      cases ho : sc.outer <;> simp [ho, Outer.code] at hcode
    · exact initWord_direct hself hscan h hd

end Text

section Fields

/-- A declaration for a type does not name the type itself directly, if it is wrap-only. -/
def noSelf (wrapOnly : Bool) (name : Text) : Decl → Bool
  | .str s => !(wrapOnly && namesDirectly name s)
  | _ => true

variable {f : Field} {name : Text} {i : TypeId}

theorem initType_spec {arr : Bool} {raw : Decl} {r : Build × Option DeclError}
    (h : (initType name arr raw props c r).2 = .ok f) : f.spec.direct? = none := by
  obtain ⟨m, e⟩ := r
  cases e with
  | some e => cases h
  | none =>
    cases h
    cases arr <;> rfl

theorem initDecl_direct (hself : x.self = some i) (hno : noSelf x.wrapOnly x.name D)
    (h : (initDecl E x name c D).2 = .ok f) (hd : f.spec.direct? = some d) : Checked E x d := by
  cases D with
  | str s =>
    rw [initDecl] at h
    cases htext : initText E x c s with
    | mk c' r =>
      rw [htext] at h
      cases r with
      | error e => cases h
      | ok leaf =>
        cases h
        rcases initText_direct hself (by rw [htext]) hd with ⟨hwpo, hnames⟩ | hchecked
        · simp [noSelf, hwpo, hnames] at hno
        · exact hchecked
  | thing props =>
    rw [initDecl] at h
    split at h
    · cases h
    · rw [initType_spec h] at hd
      cases hd
  | one D =>
    cases D with
    | thing props =>
      rw [initDecl] at h
      split at h
      · cases h
      · rw [initType_spec h] at hd
        cases hd
    | _ => rw [initDecl] at h <;> cases h
  | _ => rw [initDecl] at h <;> cases h

def Props.toList : Props → List (Text × Decl)
  | .nil => []
  | .cons name D rest => (name, D) :: rest.toList

/-- What a declaration does to a type: it is rejected at once, it is an Id definition or a method,
or a field is made for it. -/
theorem assign_cases (x : Ctx) (m : Build) (name : Text) (D : Decl)
    (r : Counts × Except DeclError Field) :
    (∃ e, assign x m name D r = (m, some e) ∧ e ≠ .diverges) ∨
    (∃ m', assign x m name D r = (m', none) ∧ m'.fields = m.fields ∧ m'.counts = m.counts) ∨
    (x.wrapOnly ∨ ∃ s, D = .str s) ∧ assign x m name D r = create m r := by
  unfold assign
  split
  · exact .inr (.inl ⟨_, rfl, rfl, rfl⟩)
  · exact .inl ⟨_, rfl, nofun⟩
  · exact .inl ⟨_, rfl, nofun⟩
  · split_ifs with hwpo
    · exact .inr (.inr ⟨.inl hwpo, rfl⟩)
    · exact .inl ⟨_, rfl, nofun⟩
  · split_ifs with hwpo
    · exact .inr (.inr ⟨.inl hwpo, rfl⟩)
    · exact .inl ⟨_, rfl, nofun⟩
  · exact .inl ⟨_, rfl, nofun⟩
  · split_ifs
    · exact .inl ⟨_, rfl, nofun⟩
    · exact .inr (.inl ⟨_, rfl, rfl, rfl⟩)
    · exact .inr (.inl ⟨_, rfl, rfl, rfl⟩)
    · exact .inr (.inr ⟨.inr ⟨_, rfl⟩, rfl⟩)

theorem mem_assign {m : Build}
    (hf : f ∈ (assign x m name D r).1.fields) : f ∈ m.fields ∨ r.2 = .ok f := by
  obtain ⟨e, heq, -⟩ | ⟨m', heq, hfields, -⟩ | ⟨-, heq⟩ := assign_cases x m name D r
  all_goals rw [heq] at hf
  · exact Or.inl hf
  · exact Or.inl (hfields ▸ hf)
  · obtain ⟨c, e | g⟩ := r
    · exact Or.inl hf
    · rcases List.mem_append.mp hf with hf | hf
      · exact Or.inl hf
      · exact Or.inr (by rw [List.mem_singleton.mp hf])

theorem mem_initProps {m : Build} {props : Props} (hf : f ∈ (initProps E x m props).1.fields) :
    f ∈ m.fields ∨ ∃ p ∈ props.toList, ∃ c, (initDecl E x p.1 c p.2).2 = .ok f := by
  match props with
  | .nil => exact Or.inl (by rwa [initProps] at hf)
  | .cons name D rest =>
    have hfirst : f ∈ (assign x m name D (initDecl E x name m.counts D)).1.fields →
        f ∈ m.fields ∨ ∃ p ∈ (Props.cons name D rest).toList, ∃ c,
          (initDecl E x p.1 c p.2).2 = .ok f := by
      intro hf
      rcases mem_assign hf with hf | hf
      · exact Or.inl hf
      · exact Or.inr ⟨(name, D), List.mem_cons_self, m.counts, hf⟩
    rw [initProps] at hf
    split at hf
    · next m' hassign =>
      rcases mem_initProps hf with hf | ⟨p, hp, hmade⟩
      · exact hfirst (by rwa [hassign])
      · exact Or.inr ⟨p, List.mem_cons_of_mem _ hp, hmade⟩
    · next m' e hassign => exact hfirst (by rwa [hassign])

end Fields

section Diverges

variable (hE : ∀ t d, E.depCheck t d ≠ none)

theorem scan_ne_diverges : scan s ≠ .error .diverges := by
  have hflags : ∀ flags t, readFlags flags t ≠ .error .diverges := by
    intro flags t
    induction t generalizing flags with
    | nil => simp [readFlags]
    | cons c t ih =>
      rw [readFlags]
      split
      · split_ifs
        · simp
        · exact ih _
      · simp
  have hinvalid : invalid s ≠ .diverges := by
    unfold invalid
    split_ifs <;> simp
  have hnested : ∀ sc, scanNested s sc ≠ .error .diverges := by
    intro sc
    unfold scanNested
    split_ifs
    · simp
    · split
      · simpa using hinvalid
      · split_ifs <;> simp
  unfold scan
  split_ifs
  · simp
  · split
    · next e he =>
      rintro ⟨⟩
      exact hflags [] s he
    · split_ifs
      · simp
      · split
        · simpa using hinvalid
        · split
          · simpa using hinvalid
          · simp
          · exact hnested _

theorem found_ne_diverges : found sc code cond ≠ .error .diverges := by
  unfold found done setErr
  simp only
  split_ifs <;> simp

theorem initEnumDefault_ne_diverges : (initEnumDefault E c sc).2 ≠ .error .diverges := by
  unfold initEnumDefault done
  simp only
  split
  · split_ifs <;> simp
  · split
    · simp
    · simp
    · simp
    · split_ifs
      · simp
      · exact found_ne_diverges
      · simp
      · simp

theorem initSelf_ne_diverges : (initSelf x c s sc).2 ≠ .error .diverges := by
  unfold initSelf
  split
  · exact found_ne_diverges
  · split_ifs
    · simp
    · simp
    · exact found_ne_diverges

include hE in
theorem initName_ne_diverges : (initName E x c s sc).2 ≠ .error .diverges := by
  have hdep : ∀ dep, depErr E x s sc dep ≠ some .diverges := by
    intro dep
    unfold depErr
    cases hcheck : E.depCheck x.self dep with
    | none => exact absurd hcheck (hE _ _)
    | some b =>
      cases b with
      | true => split <;> simp
      | false => split_ifs <;> simp
  obtain ⟨e, heq, hne⟩ | ⟨dep, -, -, heq⟩ | ⟨en, -, -, -, heq⟩ := initName_cases E x c s sc
  all_goals rw [heq]
  · rintro ⟨⟩
    exact hne.elim (absurd rfl) fun ⟨dep, h⟩ => hdep dep h
  · exact found_ne_diverges
  · exact found_ne_diverges

include hE in
theorem initText_ne_diverges : (initText E x c s).2 ≠ .error .diverges := by
  unfold initText
  split
  · next e he =>
    rintro ⟨⟩
    exact scan_ne_diverges he
  · next sc _ =>
    split
    · simp
    · rcases initWord_cases E x c s sc with
        ⟨r, heq⟩ | ⟨b, -, heq⟩ | ⟨-, heq | ⟨-, heq⟩ | ⟨-, heq⟩⟩ <;> rw [heq]
      · unfold initCond
        split <;> simp
      · exact found_ne_diverges
      · exact initEnumDefault_ne_diverges
      · exact initSelf_ne_diverges
      · exact initName_ne_diverges hE

theorem assign_ne_diverges {m : Build} (hr : r.2 ≠ .error .diverges) :
    (assign x m name D r).2 ≠ some .diverges := by
  obtain ⟨e, heq, hne⟩ | ⟨m', heq, -⟩ | ⟨-, heq⟩ := assign_cases x m name D r
  · simpa [heq] using hne
  · simp [heq]
  · rw [heq]
    obtain ⟨c, e | f⟩ := r
    · simpa [create] using hr
    · simp [create]

theorem initType_ne_diverges {arr : Bool} {raw : Decl} {r : Build × Option DeclError}
    (hr : r.2 ≠ some .diverges) : (initType name arr raw props c r).2 ≠ .error .diverges := by
  obtain ⟨m, e⟩ := r
  cases e with
  | none => simp [initType]
  | some e => simpa [initType] using hr

mutual

theorem initDecl_ne_diverges (hE : ∀ t d, E.depCheck t d ≠ none) {x : Ctx} {name : Text}
    {c : Counts} :
    ∀ D : Decl, (initDecl E x name c D).2 ≠ .error .diverges
  | .str s => by
    rw [initDecl]
    have htext := initText_ne_diverges (x := x) (c := c) (s := s) hE
    split
    · simp
    · next heq =>
      rw [heq] at htext
      simpa using htext
  | .thing props => by
    rw [initDecl]
    split
    · simp
    · exact initType_ne_diverges (initProps_ne_diverges hE props)
  | .one (.thing props) => by
    rw [initDecl]
    split
    · simp
    · exact initType_ne_diverges (initProps_ne_diverges hE props)
  | .one (.str _) | .one (.closure _) | .one (.one _) | .one (.many _) | .one (.other _) => by
    simp [initDecl]
  | .closure _ | .many _ | .other _ => by simp [initDecl]

theorem initProps_ne_diverges (hE : ∀ t d, E.depCheck t d ≠ none) {x : Ctx} {m : Build} :
    ∀ props : Props, (initProps E x m props).2 ≠ some .diverges
  | .nil => by simp [initProps]
  | .cons name D rest => by
    rw [initProps]
    have hassign : (assign x m name D (initDecl E x name m.counts D)).2 ≠ some .diverges :=
      assign_ne_diverges (initDecl_ne_diverges hE D)
    split
    · exact initProps_ne_diverges hE rest
    · next heq =>
      rw [heq] at hassign
      exact hassign

end

end Diverges

end ThingsDB.Types
