import ThingsDB.Enums.Members
import ThingsDB.Typed.Conform
import ThingsDB.Types.Condition
import ThingsDB.Types.Declared

/-!
# Default values

The callback `dval_cb` of a field, with `ti_type_dval` and `ti_enum_dval`, for types which are not
wrap-only. A default is compared with what `ti_field_make_assignable` accepts for the field.
-/

namespace ThingsDB.Types

open Relation List

/-- A value which is made: things are described, as they are new. -/
inductive Dval where
  | val (v : Val)
  | object (spec : FSpec)
  | instance (type : TypeId) (items : List Dval)

def FSpec.restriction (s : FSpec) : Spec :=
  match s.code with
  | .plain b => if h : b = .any → s.nillable = false then ⟨b, s.nillable, h⟩ else .any
  | _ => .any

section Defaults

variable (enums : EnumId → Option Enums.EnumRec) (now : ℤ)

def memberVal (en : EnumId) (e : Enums.EnumRec) (m : ℕ) : Val :=
  .member en (e.heap m).name (e.heap m).val.val

/-- `ti_enum_dval`; there is no value if the list of members is empty. -/
def enumDval (en : EnumId) : Option Dval :=
  (enums en).bind fun e => e.members.head?.map fun m => .val (memberVal en e m)

/-- The callbacks of `field__mapping`, and those of types and enumerators, where `call` is
`ti_type_dval`. -/
def baseDval (call : TypeId → Option Dval) (nested : FSpec) : Base → Option Dval
  | .any | .enum => some (.val .nil)
  | .object => some (.object nested)
  | .raw | .str | .utf8 | .email | .url | .tel => some (.val (.str []))
  | .bytes => some (.val (.bytes []))
  | .int | .uint | .number => some (.val (.int 0))
  | .pint => some (.val (.int 1))
  | .nint => some (.val (.int (-1)))
  | .float => some (.val (.float 0.0))
  | .bool => some (.val (.bool false))
  | .arr => some (.val (.arr ⟨false, false, false⟩ []))
  | .set => some (.val (.set .empty))
  | .datetime => some (.val (.datetime now false))
  | .timeval => some (.val (.datetime now true))
  | .regex => some (.val (.regex (Text.raw ['/', '.', '*', '/'])))
  | .closure => some (.val (.closure (Text.raw ['|', '|', 'n', 'i', 'l'])))
  | .error => some (.val (.error (-100) []))
  | .room => some (.val (.room 0))
  | .task => some (.val (.task 0))
  | .enumId en => enumDval enums en
  | .typeId i => call i

def Info.default : Info → Val
  | .re _ d | .irange _ _ d | .drange _ _ d | .srange _ _ d | .dval d => d

/-- `dval_cb` of a field. The first callback which is set is kept, unless there is a condition. A
member which is a default is not removed, as the field has a reference to it. -/
def Leaf.dval (call : TypeId → Option Dval) (data : Leaf) : Option Dval :=
  match data.cond, data.spec.code with
  | .info i, _ => some (.val i.default)
  | .member en name, _ =>
    let m := (enums en).bind fun e => (e.smap name.raw).map fun m => (e.heap m).val.val
    some (.val (.member en name.raw (m.getD .nil)))
  | .none, .plain b =>
    if data.spec.nillable then some (.val .nil) else baseDval enums now call data.nested b
  | .none, _ => none

def Field.default (call : TypeId → Option Dval) : Field → Option Dval
  | .leaf _ _ data => data.dval enums now call
  | .nest .. => none

/-- `ti_type_dval`, with a bound on the depth of the recursion. -/
def Schema.typeDval (s : Schema) : ℕ → TypeId → Option Dval
  | 0, _ => none
  | fuel + 1, i =>
    (s.byId i).bind fun t =>
      (t.fields.mapM fun f => Field.default enums now (s.typeDval fuel) f).map (.instance i)

end Defaults

variable {F : Typed.Field} {kind : ℕ → Kind} {k : InfoKind} {w : Text}

section Shape

variable {E : ThingsDB.Env} {D : Env} {R : Reader} {u : Subject} {x : Ctx} {c : Counts} {s : Text}
  {sc : Scan} {data : Leaf} {b : Base} {cond : Cond} {n : ℕ}

inductive Leaf.Shape (E : ThingsDB.Env) (n : ℕ) (data : Leaf) : Prop where
  | info (spec : CondSpec) (i : Info) (cond : data.cond = .info i)
      (code : data.spec.code = spec.code) (nested : data.nested = .any)
      (accepted : Accepted E data.spec.nillable n spec i)
  | plain (b bn : Base) (code : data.spec.code = .plain b) (nested : data.nested.code = .plain bn)
      (any : bn = .any → data.nested.nillable = false) (arr : b = .arr → bn ≠ .arr ∧ bn ≠ .set)
      (other : b ≠ .arr → b ≠ .set → b ≠ .object → data.nested = .any)
      (cond : data.cond = .none ∨ ∃ en name, b = .enumId en ∧ data.cond = .member en name)

theorem length_readFlags {flags : List Flag} {r : List Flag × Text}
    (h : readFlags flags s = .ok r) : r.2.length ≤ s.length := by
  induction s generalizing flags with
  | nil => simp [readFlags] at h
  | cons a s ih =>
    rw [readFlags] at h
    split at h
    · split_ifs at h
      exact (ih h).trans (Nat.le_succ _)
    · cases h
      exact le_rfl

theorem length_splitNillable {nillable : Bool}
    (h : splitNillable s = some (nillable, w)) : w.length ≤ s.length := by
  unfold splitNillable at h
  split_ifs at h
  · cases h
    simp
  · cases h
    exact le_rfl

theorem word_splitOuter {outer : Outer} (h : splitOuter s = some (outer, w)) :
    w.length ≤ s.length ∧ (outer = .plain → w.head? ≠ some '[' ∧ w.head? ≠ some '{') := by
  unfold splitOuter at h
  split_ifs at h with harr _ hset
  · cases h
    exact ⟨by simp; omega, by simp⟩
  · cases h
    exact ⟨by simp; omega, by simp⟩
  · cases h
    exact ⟨by simp; omega, by simp⟩
  · cases h
    exact ⟨le_rfl, fun _ => ⟨harr, hset⟩⟩

theorem word_scanNested {sc' : Scan} (h : scanNested s sc = .ok sc') :
    sc'.word.head? ≠ some '[' ∧ sc'.word.head? ≠ some '{' ∧ sc'.word.length ≤ sc.word.length := by
  unfold scanNested at h
  split_ifs at h with hempty
  · cases h
    simp [hempty]
  · split at h
    · cases h
    · next nillable w hsplit =>
      split_ifs at h with _ _ harr hset
      cases h
      exact ⟨harr, hset, length_splitNillable hsplit⟩

/-- A word does not start with a bracket, and is not longer than the declaration. -/
theorem word_scan (h : scan s = .ok sc) :
    sc.word.head? ≠ some '[' ∧ sc.word.head? ≠ some '{' ∧ sc.word.length ≤ s.length := by
  unfold scan at h
  split_ifs at h
  split at h
  · cases h
  · next flags t hread =>
    have ht := length_readFlags hread
    split_ifs at h
    split at h
    · cases h
    · next nillable t' hsplit =>
      have ht' := length_splitNillable hsplit
      split at h
      · cases h
      · next w houter =>
        cases h
        obtain ⟨hlen, hhead⟩ := word_splitOuter houter
        exact ⟨(hhead rfl).1, (hhead rfl).2, (hlen.trans ht').trans ht⟩
      · next outer w _ houter =>
        obtain ⟨harr, hset, hlen⟩ := word_scanNested h
        exact ⟨harr, hset, ((hlen.trans (word_splitOuter houter).1).trans ht').trans ht⟩

theorem shape_found (h : found sc (.plain b) cond = .ok data) (harr : b ≠ .arr) (hset : b ≠ .set)
    (hcond : cond = .none ∨ ∃ en name, b = .enumId en ∧ sc.outer = .plain ∧
      cond = .member en name) : data.Shape E n := by
  have hdata := found_eq h
  cases ho : sc.outer with
  | plain =>
    simp only [place, ho, Outer.code, setNested] at hdata
    subst hdata
    refine .plain b .any rfl ?_ ?_ ?_ ?_ ?_
    · simp [FSpec.any]
    · simp [FSpec.any]
    · exact fun hb => absurd hb harr
    · simp [FSpec.any]
    · rcases hcond with rfl | ⟨en, name, hb, -, rfl⟩
      · exact .inl rfl
      · exact .inr ⟨en, name, hb, rfl⟩
  | _ =>
    obtain rfl : cond = .none := by
      rcases hcond with rfl | ⟨en, name, hb, hplain, rfl⟩
      · rfl
      · cases ho.symm.trans hplain
    simp only [place, ho, Outer.code, setNested] at hdata
    subst hdata
    by_cases hobj : b = .object
    · subst hobj
      refine .plain _ _ rfl rfl ?_ ?_ ?_ (.inl rfl) <;> simp [FSpec.any]
    · refine .plain _ b rfl ?_ ?_ ?_ ?_ (.inl rfl) <;> simp +contextual [hobj, harr, hset]

theorem shape_cond {r : Except Ex (CondSpec × Info)} (h : initCond sc r = .ok data)
    (hacc : ∀ spec i, r = .ok (spec, i) → Accepted E sc.nillable n spec i) : data.Shape E n := by
  unfold initCond at h
  split at h
  · cases h
  · next spec i =>
    cases h
    exact .info spec i rfl rfl rfl (hacc spec i rfl)

theorem shape_word (hR : R.Lawful) (hs : scan s = .ok sc)
    (h : (initWord (D.reads R E u) x c s sc).2 = .ok data) : data.Shape E s.length := by
  obtain ⟨hnarr, hnset, hlen⟩ := word_scan hs
  unfold initWord at h
  by_cases hpattern : sc.outer = .plain ∧ sc.word.head? = some '/'
  · rw [if_pos hpattern] at h
    exact shape_cond h fun spec i hi => accepted_reInit hi
  rw [if_neg hpattern] at h
  by_cases hrange : sc.outer = .plain ∧ sc.word.getLast? = some '>'
  · rw [if_pos hrange] at h
    exact shape_cond h fun spec i hi => accepted_infoInit hR hlen hi
  rw [if_neg hrange] at h
  split at h
  · next b hb =>
    have hwords : ∀ p ∈ fieldMapping, (p.2 = .arr → p.1.head? = some '[') ∧
      (p.2 = .set → p.1.head? = some '{') := by decide
    obtain ⟨harr, hset⟩ := hwords (sc.word, b) (mem_fieldMapping hb)
    exact shape_found h (fun hb => hnarr (harr hb)) (fun hb => hnset (hset hb)) (.inl rfl)
  · split_ifs at h with hlast hself
    · obtain ⟨ename, m, en, hplain, -, -, -, -, -, hfound⟩ := initEnumDefault_ok h hlast
      exact shape_found hfound (by simp) (by simp) (.inr ⟨en, m, rfl, hplain, rfl⟩)
    · exact shape_found (initSelf_ok h) (by simp) (by simp) (.inl rfl)
    · obtain ⟨-, b, v, hfound, hcond, -⟩ := initName_ok h
      cases hcond with
      | type i => exact shape_found hfound (by simp) (by simp) (.inl rfl)
      | enum i => exact shape_found hfound (by simp) (by simp) (.inl rfl)

theorem shape_initText (hR : R.Lawful) (h : (initText (D.reads R E u) x c s).2 = .ok data) :
    data.Shape E s.length := by
  unfold initText at h
  split at h
  · cases h
  · next sc hs =>
    split at h
    · next outer hword houter =>
      cases h
      cases ho : sc.outer with
      | plain => simp [ho, Outer.code] at houter
      | _ =>
        simp only [ho, Outer.code, Option.some.injEq] at houter
        refine .plain _ .any houter.symm rfl (fun _ => rfl) (fun _ => ?_) (fun _ _ _ => rfl)
          (.inl rfl)
        simp
    · exact shape_word hR hs h

end Shape

/-- The specification and the condition of a field, as `Typed` has them. -/
inductive BaseOf : Code → Cond → Typed.FieldBase → Prop where
  | plain (b : Base) (cond : Cond) : BaseOf (.plain b) cond (.plain b)
  | rematch (kind : Typed.ReKind) (p : Text) (d : Val) :
      BaseOf .rematch (.info (.re p d)) (.rematch kind p.raw)
  | intRange (mi ma : Int64) (d : Val) :
      BaseOf .intRange (.info (.irange mi ma d)) (.intRange mi ma)
  | floatRange (mi ma : Float) (d : Val) :
      BaseOf .floatRange (.info (.drange mi ma d)) (.floatRange mi ma)
  | strRange (mi ma : ℕ) (d : Val) : BaseOf .strRange (.info (.srange mi ma d)) (.strRange mi ma)
  | utf8Range (mi ma : ℕ) (d : Val) : BaseOf .utf8Range (.info (.srange mi ma d)) (.utf8Range mi ma)

/-- A field of a type which is not wrap-only, as `Typed` has it. -/
structure Leaf.Declares (data : Leaf) (F : Typed.Field) : Prop where
  base : BaseOf data.spec.code data.cond F.base
  nillable : F.nillable = data.spec.nillable
  nested : data.nested.code = .plain F.nested.base
  nestedNillable : F.nested.nillable = data.nested.nillable

def Dval.put {φ : Type} (C : Typed.Collection φ) (t : ℕ) : Dval → Val × Typed.Collection φ
  | .val v => (v, C)
  | .object spec =>
    (.thing t, { C with
      kind := Function.update C.kind t (.object spec.restriction)
      props := Function.update C.props t [] })
  | .instance i _ => (.thing t, { C with kind := Function.update C.kind t (.instance i) })

/-- What the tests of strings do with the strings which are made. -/
structure Lawful (E : ThingsDB.Env) : Prop where
  utf8 : ∀ r : Raw, (∀ b ∈ r, b < 128) → E.isUtf8 r = true
  email : E.isEmail [] = true
  url : E.isUrl [] = true
  tel : E.isTel [] = true

section Accepts

variable {φ : Type} [DecidableEq φ] {E : ThingsDB.Env} {T : Typed.Types φ} {C : Typed.Collection φ}
  {f : φ} {p t n : ℕ} {data : Leaf} {d : Dval} {v : Val}

/-- `ti_field_make_assignable` accepts a default. -/
def Dval.Valid (E : ThingsDB.Env) (T : Typed.Types φ) (C : Typed.Collection φ) (f : φ) (p t : ℕ)
    (d : Dval) : Prop :=
  ∃ r, Typed.makeAssignable E T (d.put C t).2 f p (.val (d.put C t).1 false) = .ok r

/-- A value which is no thing, list or set, and which can be stored. -/
def Simple (v : Val) : Prop :=
  v.tp ≠ .thing ∧ v.tp ≠ .arr ∧ v.tp ≠ .set ∧ v.tp ≠ .future ∧ v.tp ≠ .module

omit [DecidableEq φ] in
theorem plainAssign_simple (hv : Simple v) :
    Typed.plainAssign E T C F (.val v false) =
      Typed.checked C v (Typed.valueErr E C.kind F v) := by
  obtain ⟨hthing, harr, hset, hfuture, hmodule⟩ := hv
  unfold Typed.plainAssign
  split
  · next hr => exact absurd (congrArg Val.tp hr) harr
  · next hr => exact absurd (congrArg Val.tp hr) hset
  · next hr => exact absurd (congrArg Val.tp hr) hfuture
  · next hr => exact absurd (congrArg Val.tp hr) hmodule
  · next hr => exact absurd (congrArg Val.tp hr) hthing
  · next hr => exact absurd (congrArg Val.tp hr) harr
  · next hr => exact absurd (congrArg Val.tp hr) hset
  · rfl

theorem valueErr_of_holds (hv : Simple v) (hnil : ¬ (F.nillable ∧ v.tp = .nil))
    (h : F.Holds E kind v) : Typed.valueErr E kind F v = none := by
  obtain ⟨hthing, harr, hset, -⟩ := hv
  have hbase := h.resolve_left hnil
  unfold Typed.valueErr
  cases hb : F.base with
  | plain b =>
    simp only [hb] at hbase ⊢
    rw [Typed.valueError_eq_none, checkNestedBase_eq_success]
    cases b with
    | any => trivial
    | object =>
      obtain ⟨t, rfl, -⟩ := hbase
      exact absurd rfl hthing
    | arr =>
      obtain ⟨flags, vec, rfl, -⟩ := hbase
      exact absurd rfl harr
    | set =>
      obtain ⟨imap, rfl, -⟩ := hbase
      exact absurd rfl hset
    | _ => exact hbase
  | rematch re pattern =>
    simp only [hb] at hbase ⊢
    simp [hbase]
  | intRange mi ma =>
    simp only [hb] at hbase ⊢
    obtain ⟨i, rfl, hmi, hma⟩ := hbase
    simp [Int64.not_lt.mpr hmi, Int64.not_lt.mpr hma]
  | floatRange mi ma =>
    simp only [hb] at hbase ⊢
    obtain ⟨x, rfl, hmi, hma, hnan⟩ := hbase
    exact (if_neg (not_or.mpr ⟨hmi, hma⟩)).trans (if_neg hnan)
  | strRange mi ma =>
    simp only [hb] at hbase ⊢
    simp [hbase, Nat.not_lt.mpr hbase.2.1, Nat.not_lt.mpr hbase.2.2]
  | utf8Range mi ma =>
    simp only [hb] at hbase ⊢
    simp [hbase, Nat.not_lt.mpr hbase.2.2.1, Nat.not_lt.mpr hbase.2.2.2]

theorem valid_val_iff (hrel : T.rel f = none) (hv : Simple v) :
    (Dval.val v).Valid E T C f p t ↔ (T.field f).Holds E C.kind v := by
  unfold Dval.Valid Dval.put Typed.makeAssignable
  rw [if_neg (by simp [hrel])]
  by_cases hnil : (T.field f).nillable = true ∧ v.tp = .nil
  · have hcond : (T.field f).nillable = true ∧ (Typed.Rval.get C (.val v false)).tp = .nil := hnil
    rw [if_pos hcond]
    exact ⟨fun _ => .inl hnil, fun _ => ⟨_, rfl⟩⟩
  · have hcond : ¬ ((T.field f).nillable = true ∧ (Typed.Rval.get C (.val v false)).tp = .nil) :=
      hnil
    rw [if_neg hcond, plainAssign_simple hv]
    constructor
    · rintro ⟨⟨c', w⟩, hok⟩
      have hnone := (Typed.checked_ok hok).1
      apply Typed.holds_of_valueErr hnone
      · exact fun _ => ⟨hv.2.2.2.1, hv.2.2.2.2⟩
      · exact fun _ => hv.1
      · exact fun _ => hv.2.1
      · exact fun _ => hv.2.2.1
    · intro hh
      rw [valueErr_of_holds hv hnil hh]
      exact ⟨_, rfl⟩

theorem valid_nil (hrel : T.rel f = none) (hnil : (T.field f).nillable) :
    (Dval.val .nil).Valid E T C f p t := by
  rw [valid_val_iff hrel (by simp [Simple, Val.tp])]
  exact .inl ⟨hnil, rfl⟩

omit [DecidableEq φ] in
theorem restriction_eq (hF : data.Declares F) : data.nested.restriction = F.nested := by
  obtain ⟨-, -, hbase, hnil⟩ := hF
  unfold FSpec.restriction
  cases hn : F.nested with
  | mk b nillable hany =>
    rw [hn] at hbase hnil
    simp only at hbase hnil
    simp only [hbase, ← hnil, dif_pos hany]

variable {enums : EnumId → Option Enums.EnumRec} {now : ℤ} {call : TypeId → Option Dval} {b : Base}

theorem valid_thing {C' : Typed.Collection φ} (hrel : T.rel f = none)
    (h : (T.field f).base = .plain .object ∧ C'.kind t = .object (T.field f).nested ∨
      ∃ i, (T.field f).base = .plain (.typeId i) ∧ C'.kind t = .instance i) :
    ∃ r, Typed.makeAssignable E T C' f p (.val (.thing t) false) = .ok r := by
  unfold Typed.makeAssignable
  rw [if_neg (by simp [hrel]), if_neg (by simp [Typed.Rval.get, Val.tp])]
  rcases h with ⟨hb, hk⟩ | ⟨i, hb, hk⟩
  · simp only [Typed.plainAssign, hb, Typed.Rval.get, Typed.thingAssign, hk, if_true]
    split_ifs <;> exact ⟨_, rfl⟩
  · have herr : Typed.valueErr E C'.kind (T.field f) (.thing t) = none := by
      simp [Typed.valueErr, hb, Typed.valueError_eq_none, checkNestedBase_eq_success, Base.Holds,
        hk]
    simp only [Typed.plainAssign, hb, Typed.Rval.get, herr]
    exact ⟨_, rfl⟩

theorem holds_base (kind : ℕ → Kind) {nested : FSpec} (hE : Lawful E) (hany : b ≠ .any)
    (hobj : b ≠ .object) (harr : b ≠ .arr) (hset : b ≠ .set) (htype : ∀ i, b ≠ .typeId i)
    (hd : baseDval enums now call nested b = some d) :
    ∃ v, d = .val v ∧ Simple v ∧ b.Holds E kind v := by
  cases b with
  | any => exact absurd rfl hany
  | object => exact absurd rfl hobj
  | arr => exact absurd rfl harr
  | set => exact absurd rfl hset
  | typeId i => exact absurd rfl (htype i)
  | enumId en =>
    simp only [baseDval, enumDval, Option.bind_eq_some_iff, Option.map_eq_some_iff] at hd
    obtain ⟨e, -, m, -, rfl⟩ := hd
    exact ⟨_, rfl, by simp [Simple, memberVal, Val.tp], _, _, rfl⟩
  | uint =>
    cases hd
    exact ⟨_, rfl, by simp [Simple, Val.tp], 0, rfl, by decide⟩
  | pint =>
    cases hd
    exact ⟨_, rfl, by simp [Simple, Val.tp], 1, rfl, by decide⟩
  | nint =>
    cases hd
    exact ⟨_, rfl, by simp [Simple, Val.tp], -1, rfl, by decide⟩
  | utf8 =>
    cases hd
    exact ⟨_, rfl, by simp [Simple, Val.tp], rfl, hE.utf8 [] (by simp)⟩
  | email =>
    cases hd
    exact ⟨_, rfl, by simp [Simple, Val.tp], rfl, hE.email⟩
  | url =>
    cases hd
    exact ⟨_, rfl, by simp [Simple, Val.tp], rfl, hE.url⟩
  | tel =>
    cases hd
    exact ⟨_, rfl, by simp [Simple, Val.tp], rfl, hE.tel⟩
  | enum =>
    cases hd
    exact ⟨_, rfl, by simp [Simple, Val.tp], .inr rfl⟩
  | _ =>
    cases hd
    exact ⟨_, rfl, by simp [Simple, Val.tp], rfl⟩

/-- The defaults of `field__mapping`, of enumerators and of types are accepted. -/
theorem valid_base (hE : Lawful E) (hrel : T.rel f = none) (hF : data.Declares (T.field f))
    (hb : (T.field f).base = .plain b)
    (hcall : ∀ i d, call i = some d → ∃ items, d = .instance i items)
    (hd : baseDval enums now call data.nested b = some d) : d.Valid E T C f p t := by
  cases b with
  | any =>
    cases hd
    rw [valid_val_iff hrel (by simp [Simple, Val.tp])]
    exact .inr (by simp [hb, Val.tp])
  | object =>
    cases hd
    apply valid_thing hrel
    left
    exact ⟨hb, by simp [Dval.put, restriction_eq hF]⟩
  | arr =>
    cases hd
    refine ⟨(C, .arr ⟨false, false, false⟩ []), ?_⟩
    simp [Dval.put, Typed.makeAssignable, hrel, Typed.Rval.get, Val.tp, Typed.plainAssign, hb,
      Typed.varrAssign, Typed.checked, Typed.valMakeAssignable]
  | set =>
    cases hd
    refine ⟨(C, .set .empty), ?_⟩
    simp [Dval.put, Typed.makeAssignable, hrel, Typed.Rval.get, Val.tp, Typed.plainAssign, hb,
      Typed.vsetAssign, Typed.checked, Util.Imap.empty]
  | typeId i =>
    obtain ⟨items, rfl⟩ := hcall i d hd
    exact valid_thing hrel (.inr ⟨i, hb, by simp [Dval.put]⟩)
  | _ =>
    obtain ⟨v, rfl, hv, hh⟩ := holds_base C.kind hE (by simp) (by simp) (by simp) (by simp)
      (by simp) hd
    rw [valid_val_iff hrel hv]
    exact .inr (by rw [hb]; exact hh)

omit [DecidableEq φ] in
theorem holds_srange_iff (hk : k = .str ∨ k = .utf8) {mi ma : ℕ} {d : Val} {r : Raw}
    (hbase : BaseOf k.spec.code (.info (.srange mi ma d)) F.base) :
    F.Holds E kind (.str r) ↔ mi ≤ r.length ∧ r.length ≤ ma ∧
      (k.spec.code = .utf8Range → E.isUtf8 r) := by
  unfold Typed.Field.Holds
  generalize F.base = B at hbase
  rcases hk with rfl | rfl
  · cases hbase
    simp [Val.tp, Val.isStr, Val.data, InfoKind.spec, CondSpec.code]
  · cases hbase
    simp [Val.tp, Val.isStr, Val.data, InfoKind.spec, CondSpec.code, and_comm, and_assoc]

/-- The default of a condition is accepted, unless a string which is filled up gets too long or
the default of an `utf8` range is not one. -/
theorem valid_info_iff (hE : Lawful E) (hrel : T.rel f = none) (hF : data.Declares (T.field f))
    {spec : CondSpec} {i : Info} (hcond : data.cond = .info i) (hcode : data.spec.code = spec.code)
    (hacc : Accepted E data.spec.nillable n spec i) (hn : n < 2 ^ 32)
    (hfloat : data.spec.code ≠ .floatRange) :
    (Dval.val i.default).Valid E T C f p t ↔ ∀ mi ma v, i = .srange mi ma v → v ≠ .nil →
      mi < 2 ^ 32 ∧ (data.spec.code = .utf8Range → E.isUtf8 v.data) := by
  have hbase := hF.base
  rw [hcond, hcode] at hbase
  have hnil := hF.nillable
  generalize hB : (T.field f).base = B at hbase
  cases hacc with
  | bool b =>
    cases hbase
    rw [Info.default, valid_val_iff hrel (by simp [Simple, Val.tp])]
    refine iff_of_true (.inr ?_) (by simp)
    simp [hB, Base.Holds, Val.tp]
  | re pat r htest =>
    cases hbase
    rw [Info.default, valid_val_iff hrel (by simp [Simple, Val.tp])]
    refine iff_of_true (.inr ?_) (by simp)
    simp [hB, Val.isStr, Val.tp, Val.data, htest]
  | reNil pat h =>
    exact iff_of_true (valid_nil hrel (hnil.trans h)) (by simp)
  | int mi ma j hmi hma =>
    cases hbase
    rw [Info.default, valid_val_iff hrel (by simp [Simple, Val.tp])]
    refine iff_of_true (.inr ?_) (by simp)
    simp [hB, hmi, hma]
  | intNil mi ma h =>
    exact iff_of_true (valid_nil hrel (hnil.trans h)) (by simp)
  | float j => exact absurd hcode hfloat
  | strNil k hk mi ma h =>
    refine iff_of_true (valid_nil hrel (hnil.trans h)) ?_
    rintro mi' ma' v heq hv
    cases heq
    exact absurd rfl hv
  | str k hk mi ma r hmi hma hlen =>
    rw [Info.default, valid_val_iff hrel (by simp [Simple, Val.tp]),
      holds_srange_iff hk (hB ▸ hbase),
      hcode]
    constructor
    · rintro ⟨-, -, hutf8⟩ mi' ma' v heq -
      cases heq
      exact ⟨by omega, hutf8⟩
    · intro h
      exact ⟨hmi, hma, (h mi ma _ rfl (by simp)).2⟩
  | fill k hk mi ma hle =>
    have hascii : E.isUtf8 (replicate (mi % 2 ^ 32) 45) = true := by
      apply hE.utf8
      intro b hb
      rw [eq_of_mem_replicate hb]
      decide
    rw [Info.default, strDvalN, valid_val_iff hrel (by simp [Simple, Val.tp]),
      holds_srange_iff hk (hB ▸ hbase), hcode, length_replicate]
    have hmod : mi % 2 ^ 32 < 2 ^ 32 := Nat.mod_lt _ (by norm_num)
    constructor
    · rintro ⟨hmi, -, hutf8⟩ mi' ma' v heq -
      cases heq
      exact ⟨hmi.trans_lt hmod, hutf8⟩
    · intro h
      rw [Nat.mod_eq_of_lt (h mi ma _ rfl (by simp)).1] at hascii ⊢
      exact ⟨le_rfl, hle, fun _ => hascii⟩

/-- The default of a condition has the length and the form which the condition asks for. -/
def Leaf.CondFits (E : ThingsDB.Env) (data : Leaf) : Prop :=
  ∀ mi ma v, data.cond = .info (.srange mi ma v) → v ≠ .nil →
    mi < 2 ^ 32 ∧ (data.spec.code = .utf8Range → E.isUtf8 v.data = true)

theorem valid_dval_iff (hE : Lawful E) (hrel : T.rel f = none) (hF : data.Declares (T.field f))
    (hshape : data.Shape E n) (hn : n < 2 ^ 32) (hfloat : data.spec.code ≠ .floatRange)
    (hcall : ∀ i d, call i = some d → ∃ items, d = .instance i items)
    (hd : data.dval enums now call = some d) : d.Valid E T C f p t ↔ data.CondFits E := by
  cases hshape with
  | info spec i hcond hcode hnested hacc =>
    simp only [Leaf.dval, hcond, Option.some.injEq] at hd
    subst hd
    rw [valid_info_iff hE hrel hF hcond hcode hacc hn hfloat, Leaf.CondFits, hcond]
    simp only [Cond.info.injEq]
  | plain b bn hcode hnested hany harr hother hcond =>
    have hbase : (T.field f).base = .plain b := by
      have hof := hF.base
      rw [hcode] at hof
      generalize (T.field f).base = B at hof
      cases hof
      rfl
    have hfits : data.CondFits E := by
      intro mi ma v hinfo
      rcases hcond with hnone | ⟨en, name, -, hmember⟩
      · cases hnone.symm.trans hinfo
      · cases hmember.symm.trans hinfo
    refine iff_of_true ?_ hfits
    rcases hcond with hnone | ⟨en, name, rfl, hmember⟩
    · simp only [Leaf.dval, hnone, hcode] at hd
      split_ifs at hd with hnil
      · cases hd
        exact valid_nil hrel (hF.nillable.trans hnil)
      · exact valid_base hE hrel hF hbase hcall hd
    · simp only [Leaf.dval, hmember, Option.some.injEq] at hd
      subst hd
      rw [valid_val_iff hrel (by simp [Simple, Val.tp])]
      exact .inr (by rw [hbase]; exact ⟨_, _, rfl⟩)

end Accepts

section Exists

variable {E : ThingsDB.Env} {S : Schema} {enums : EnumId → Option Enums.EnumRec} {now : ℤ}
  {call : TypeId → Option Dval} {data : Leaf} {i : TypeId} {n : ℕ}

theorem exists_srange_base (hk : k = .str ∨ k = .utf8) (mi ma : ℕ) (d : Val) :
    ∃ B, BaseOf k.spec.code (.info (.srange mi ma d)) B ∧ B ≠ .plain .arr := by
  rcases hk with rfl | rfl
  · exact ⟨_, .strRange _ _ _, by simp⟩
  · exact ⟨_, .utf8Range _ _ _, by simp⟩

theorem exists_declares (hshape : data.Shape E n) (hfloat : data.spec.code ≠ .floatRange) :
    ∃ F, data.Declares F := by
  cases hshape with
  | info spec i hcond hcode hnested hacc =>
    have hmake : ∀ B, BaseOf data.spec.code data.cond B → B ≠ .plain .arr →
        ∃ F, data.Declares F := by
      intro B hB harr
      refine ⟨⟨0, [], [], B, data.spec.nillable, .any, fun h => absurd h harr,
        fun _ _ _ => rfl⟩, ?_⟩
      exact ⟨hB, rfl, by rw [hnested]; rfl, by rw [hnested]; rfl⟩
    rw [hcond, hcode] at hmake
    cases hacc with
    | bool b => exact hmake _ (.plain _ _) (by simp)
    | re p r htest => exact hmake _ (.rematch .pattern _ _) (by simp)
    | reNil p hnil => exact hmake _ (.rematch .pattern _ _) (by simp)
    | int mi ma j hmi hma => exact hmake _ (.intRange _ _ _) (by simp)
    | intNil mi ma hnil => exact hmake _ (.intRange _ _ _) (by simp)
    | float j => exact absurd hcode hfloat
    | str k hk mi ma =>
      obtain ⟨B, hB, harr⟩ := exists_srange_base hk mi ma _
      exact hmake B hB harr
    | fill k hk mi ma =>
      obtain ⟨B, hB, harr⟩ := exists_srange_base hk mi ma _
      exact hmake B hB harr
    | strNil k hk mi ma =>
      obtain ⟨B, hB, harr⟩ := exists_srange_base hk mi ma _
      exact hmake B hB harr
  | plain b bn hcode hnested hany harr hother hcond =>
    have hbase : BaseOf data.spec.code data.cond (.plain b) := by
      rw [hcode]
      exact .plain b _
    refine ⟨⟨0, [], [], .plain b, data.spec.nillable, ⟨bn, data.nested.nillable, hany⟩, ?_, ?_⟩,
      ⟨hbase, rfl, hnested, rfl⟩⟩
    · intro hb
      cases hb
      exact harr rfl
    · intro hna hns hno
      have hnested' :=
        hother (fun h => hna (h ▸ rfl)) (fun h => hns (h ▸ rfl)) (fun h => hno (h ▸ rfl))
      rw [hnested'] at hnested
      simp only [FSpec.any, Code.plain.injEq] at hnested
      subst hnested
      simp [hnested', Spec.any, FSpec.any]

/-- The type whose default is a part of the default of a field. -/
def Leaf.needs (data : Leaf) : Option TypeId :=
  match data.cond with
  | .none => data.spec.direct?
  | _ => none

def Field.needs : Field → Option TypeId
  | .leaf _ _ data => data.needs
  | .nest .. => none

def Schema.needs (s : Schema) (i : TypeId) : List TypeId :=
  (s.byId i).elim [] fun t => t.fields.filterMap Field.needs

/-- A field has a default, apart from the one of a type: an enumerator without a default member
is nillable or has a member. -/
def Leaf.Able (enums : EnumId → Option Enums.EnumRec) (data : Leaf) : Prop :=
  data.cond = .none → ∃ b, data.spec.code = .plain b ∧ (data.spec.nillable = false →
    ∀ en, b = .enumId en → ∃ e, enums en = some e ∧ e.members ≠ [])

def Field.Able (enums : EnumId → Option Enums.EnumRec) : Field → Prop
  | .leaf _ _ data => data.Able enums
  | .nest .. => False

def Schema.Able (s : Schema) (enums : EnumId → Option Enums.EnumRec) (i : TypeId) : Prop :=
  ∃ t, s.byId i = some t ∧ ∀ f ∈ t.fields, f.Able enums

theorem exists_enumDval_iff {en : EnumId} : (∃ d, enumDval enums en = some d) ↔
    ∃ e, enums en = some e ∧ e.members ≠ [] := by
  unfold enumDval
  cases enums en with
  | none => simp
  | some e => cases hm : e.members <;> simp [hm]

theorem exists_dval_iff : (∃ d, data.dval enums now call = some d) ↔
    data.Able enums ∧ ∀ i, data.needs = some i → ∃ d, call i = some d := by
  obtain ⟨⟨code, nillable⟩, nested, flags, cond⟩ := data
  cases cond with
  | info i => simp [Leaf.dval, Leaf.Able, Leaf.needs]
  | member en name => simp [Leaf.dval, Leaf.Able, Leaf.needs]
  | none =>
    cases code with
    | plain b =>
      cases nillable with
      | true => simp [Leaf.dval, Leaf.Able, Leaf.needs, FSpec.direct?]
      | false =>
        cases b with
        | typeId j => simp [Leaf.dval, Leaf.Able, Leaf.needs, FSpec.direct?, baseDval]
        | enumId en =>
          simpa [Leaf.dval, Leaf.Able, Leaf.needs, FSpec.direct?, baseDval] using
            exists_enumDval_iff
        | _ => simp [Leaf.dval, Leaf.Able, Leaf.needs, FSpec.direct?, baseDval]
    | _ => simp [Leaf.dval, Leaf.Able]

theorem exists_default_iff {f : Field} : (∃ d, f.default enums now call = some d) ↔
    f.Able enums ∧ ∀ i, f.needs = some i → ∃ d, call i = some d := by
  cases f with
  | leaf name text data => exact exists_dval_iff
  | nest => simp [Field.default, Field.Able]

theorem exists_mapM_iff {α β : Type} {g : α → Option β} {l : List α} :
    (∃ r, l.mapM g = some r) ↔ ∀ x ∈ l, ∃ y, g x = some y := by
  induction l with
  | nil => simp
  | cons x l ih =>
    rw [forall_mem_cons, ← ih]
    cases hx : g x with
    | none => simp [mapM_cons, hx]
    | some y => cases hl : l.mapM g <;> simp [mapM_cons, hx, hl]

theorem exists_typeDval_iff (m : ℕ) (i : TypeId) :
    (∃ d, S.typeDval enums now (m + 1) i = some d) ↔
      S.Able enums i ∧ ∀ j ∈ S.needs i, ∃ d, S.typeDval enums now m j = some d := by
  simp only [Schema.typeDval, Schema.Able, Schema.needs]
  cases hi : S.byId i with
  | none => simp
  | some t =>
    simp only [Option.bind_some, Option.map_eq_some_iff, Option.elim_some, mem_filterMap,
      Option.some.injEq, exists_eq_left']
    rw [exists_comm]
    simp only [exists_and_left, exists_eq', and_true, exists_mapM_iff, exists_default_iff]
    constructor
    · intro h
      exact ⟨fun f hf => (h f hf).1, fun j ⟨f, hf, hj⟩ => (h f hf).2 j hj⟩
    · intro h f hf
      exact ⟨h.1 f hf, fun j hj => h.2 j ⟨f, hf, hj⟩⟩

theorem typeDval_instance {m : ℕ} {d : Dval} (h : S.typeDval enums now m i = some d) :
    ∃ items, d = .instance i items := by
  cases m with
  | zero => cases h
  | succ m =>
    simp only [Schema.typeDval, Option.bind_eq_some_iff, Option.map_eq_some_iff] at h
    obtain ⟨t, -, items, -, rfl⟩ := h
    exact ⟨items, rfl⟩

/-- `ti_type_dval` returns a value for the type. -/
def Schema.HasDefault (s : Schema) (enums : EnumId → Option Enums.EnumRec) (i : TypeId) : Prop :=
  Acc (fun y x => Descent.Step s.needs x y) i ∧
    ∀ j, ReflTransGen (Descent.Step s.needs) i j → s.Able enums j

/-- The field has a default, as every type has which the default is made of. -/
def Leaf.HasDefault (S : Schema) (enums : EnumId → Option Enums.EnumRec) (data : Leaf) : Prop :=
  data.Able enums ∧ ∀ i, data.needs = some i → S.HasDefault enums i

theorem hasDefault_type_iff (now : ℤ) :
    (∃ m d, S.typeDval enums now m i = some d) ↔ S.HasDefault enums i := by
  refine @Descent.exists_returns_iff _ S.needs (fun m i => ∃ d, S.typeDval enums now m i = some d)
    (S.Able enums) i ?_ exists_typeDval_iff
  intro j hj
  obtain ⟨d, hd⟩ := hj
  cases hd

theorem hasDefault_iff (now : ℤ) :
    (∃ m d, data.dval enums now (S.typeDval enums now m) = some d) ↔ data.HasDefault S enums := by
  simp only [exists_dval_iff, Leaf.HasDefault, ← hasDefault_type_iff now]
  constructor
  · rintro ⟨m, hable, hneeds⟩
    exact ⟨hable, fun i hi => ⟨m, hneeds i hi⟩⟩
  · rintro ⟨hable, hneeds⟩
    cases hn : data.needs with
    | none => exact ⟨0, hable, by simp⟩
    | some i =>
      obtain ⟨m, hm⟩ := hneeds i hn
      refine ⟨m, hable, ?_⟩
      rintro j ⟨⟩
      exact hm

variable {D : Env} {R : Reader} {u : Subject} {x : Ctx} {c : Counts} {s : Text}

/-- A declaration which is accepted has a default which is accepted for the field, exactly if
every type which the default is made of has one, the enumerators have a member, and the default of
a range of lengths has at least the minimum and is `utf8` where this is asked for. -/
theorem default_valid_iff (hR : R.Lawful) (hE : Lawful E) (hlen : s.length < 2 ^ 32)
    (h : (initText (D.reads R E u) x c s).2 = .ok data) (hfloat : data.spec.code ≠ .floatRange) :
    (∃ F, data.Declares F) ∧
    ∀ {φ : Type} [DecidableEq φ] (T : Typed.Types φ) (f : φ), data.Declares (T.field f) →
      T.rel f = none → ∀ (C : Typed.Collection φ) (p t : ℕ),
        ((∃ m d, data.dval enums now (S.typeDval enums now m) = some d ∧ d.Valid E T C f p t) ↔
          data.HasDefault S enums ∧ data.CondFits E) := by
  have hshape := shape_initText hR h
  refine ⟨exists_declares hshape hfloat, ?_⟩
  intro φ _ T f hF hrel C p t
  have hvalid : ∀ m d, data.dval enums now (S.typeDval enums now m) = some d →
      (d.Valid E T C f p t ↔ data.CondFits E) := fun m d hd =>
    valid_dval_iff hE hrel hF hshape hlen hfloat (fun i d => typeDval_instance) hd
  rw [← hasDefault_iff now]
  constructor
  · rintro ⟨m, d, hd, hok⟩
    exact ⟨⟨m, d, hd⟩, (hvalid m d hd).mp hok⟩
  · rintro ⟨⟨m, d, hd⟩, hfits⟩
    exact ⟨m, d, hd, (hvalid m d hd).mpr hfits⟩

end Exists

def easyEnv : ThingsDB.Env where
  typeName _ := ""
  enumName _ := ""
  text _ := ""
  fmtFloat _ := ""
  isUtf8 _ := true
  isEmail _ := true
  isUrl _ := true
  isTel _ := true
  regexTest _ _ := true
  nameIsValid _ := true

theorem easyEnv_lawful : Lawful easyEnv := ⟨fun _ _ => rfl, rfl, rfl, rfl⟩

def decimals : Reader where
  toInt64 s :=
    ⟨(s.takeWhile Char.isDigit).foldl (fun n c => n * 10 + Int64.ofNat (c.toNat - 48)) 0,
      s.dropWhile Char.isDigit, false⟩
  toDouble s := (0.0, s)
  malloc _ := true
  regexErr _ := none
  reEmail := []
  reUrl := []
  reTel := []

theorem decimals_lawful : decimals.Lawful := fun _ => dropWhile_suffix _

/-- The enumerator `E` in an empty collection. -/
def enumSchema : Schema := { Schema.empty with enums := [⟨0, ['E'], []⟩] }

/-- The enumerators after `set_enum('E', {f: ||nil})`. -/
def closureEnums : Enums.Coll :=
  Enums.calls easyEnv (fun _ => none) (fun _ _ => false) (fun _ => none) (fun _ => false)
    (fun _ => false) ⟨fun _ => none, 0⟩
    [.setEnum [69] [⟨.name [102], .leaf 0 (.closure [124, 124, 110, 105, 108]) (by decide)⟩]]

/-- The declaration `E` is accepted, but there is no default as the enumerator has no members. -/
theorem closure_enum_no_default : ∃ e data, closureEnums.byName [69] = some e ∧
    (initText ((enumSchema.env noLang 0).reads decimals easyEnv ⟨['e'], ['T'], ['E']⟩)
      ⟨some 0, ['T'], false⟩ ⟨[], 0, fun _ => 0⟩ ['E']).2 = .ok data ∧
    ∀ now m, data.dval (fun _ => some e) now
      (enumSchema.typeDval (fun _ => some e) now m) = none := by
  refine ⟨_, _, rfl, rfl, ?_⟩
  intro now m
  rfl

/-- `str<2:5>` -/
def rangeText : Text := ['s', 't', 'r', '<', '2', ':', '5', '>']

def rangeTypes : Typed.Types Unit :=
  .single (fun _ => ⟨0, [115], rangeText.raw, .strRange 2 5, false, .any, by simp, by simp⟩) [()]
    (fun _ => rfl) <| by simp [Typed.Field.Uses, Spec.any]

/-- The default of `str<2:5>` is `--`. -/
theorem range_default_valid : ∃ data,
    (initText ((Schema.empty.env noLang 0).reads decimals easyEnv ⟨['s'], ['T'], rangeText⟩)
      ⟨some 0, ['T'], false⟩ ⟨[], 0, fun _ => 0⟩ rangeText).2 = .ok data ∧
    ∀ C : Typed.Collection Unit, ∃ m d,
      data.dval (fun _ => none) 0 (Schema.empty.typeDval (fun _ => none) 0 m) = some d ∧
        d.Valid easyEnv rangeTypes C () 0 0 := by
  obtain ⟨data, h, hdata⟩ : ∃ data,
      (initText ((Schema.empty.env noLang 0).reads decimals easyEnv ⟨['s'], ['T'], rangeText⟩)
        ⟨some 0, ['T'], false⟩ ⟨[], 0, fun _ => 0⟩ rangeText).2 = .ok data ∧
      data = ⟨⟨.strRange, false⟩, .any, [.deep], .info (.srange 2 5 (strDvalN 2))⟩ :=
    ⟨_, rfl, rfl⟩
  refine ⟨data, h, fun C => ?_⟩
  have hF : data.Declares (rangeTypes.field ()) := by
    subst hdata
    exact ⟨.strRange 2 5 _, rfl, rfl, rfl⟩
  apply ((default_valid_iff decimals_lawful easyEnv_lawful (by decide) h (by simp [hdata])).2
    rangeTypes () hF rfl C 0 0).mpr
  subst hdata
  exact ⟨⟨by simp [Leaf.Able], by simp [Leaf.needs]⟩, by simp [Leaf.CondFits]⟩

end ThingsDB.Types
