import ThingsDB.Typed.Conform

/-!
# Converting a thing to a type

`do__f_to_type` with `ti_type_convert`. Lists and sets are objects here, as they know the thing
and the key they belong to and how many references there are. The properties are made
assignable one after the other, before it is known that all of them can be. The tasks for the
other nodes are left out.
-/

namespace ThingsDB.Typed

open Util Relations Function List

/-- The member `key_`: the name of a property of a thing without type, or the field. -/
inductive Key (φ : Type) where
  | name (name : Raw)
  | field (f : φ)

/-- `ti_varr_t` and `ti_vset_t` -/
structure Mut (φ : Type) where
  val : Val
  ref : ℕ
  parent : Option ℕ
  key : Key φ
  locked : Bool

inductive Slot where
  | val (v : Val)
  | obj (a : ℕ)

/-- A collection with its lists and sets; those from `next` on are not allocated. -/
structure Memory (φ : Type) where
  kind : ℕ → Kind
  id : ℕ → ℕ
  vals : φ → ℕ → Slot
  items : ℕ → List (Raw × Slot)
  obj : ℕ → Mut φ
  next : ℕ

/-- What `to_type` reads of the query, of the types and of the lock of the thing. -/
structure Query where
  change : Bool
  nse : Bool
  /-- A commit is missing, which the root of a collection with a history requires. -/
  noCommit : Bool
  scopeName : String
  locked : Bool
  byRaw : Raw → Option TypeId
  wrapOnly : TypeId → Bool
  inUse : TypeId → Bool

namespace Memory

variable {φ : Type}

def get (s : Memory φ) : Slot → Val
  | .val v => v
  | .obj a => (s.obj a).val

def coll (s : Memory φ) : Collection φ where
  kind := s.kind
  id := s.id
  vals f t := s.get (s.vals f t)
  props t := (s.items t).map fun p => (p.1, s.get p.2)

def alloc (s : Memory φ) (t : ℕ) (f : φ) (v : Val) : Memory φ :=
  { s with
    obj := Function.update s.obj s.next ⟨v, 1, some t, .field f, false⟩
    next := s.next + 1 }

/-- `ti_varr_to_list` and `ti_vset_assign` with the members which are set afterwards: with
more than one reference the property keeps the old list, which loses a reference. -/
def rebind (s : Memory φ) (t : ℕ) (f : φ) (a : ℕ) (v : Val) : Memory φ × Slot :=
  let o := s.obj a
  let bound : Mut φ := { o with val := v, parent := some t, key := .field f }
  let dropped : Mut φ := { o with ref := o.ref - 1 }
  if o.ref = 1 then ({ s with obj := Function.update s.obj a bound }, .obj a)
  else (alloc { s with obj := Function.update s.obj a dropped } t f v, .obj s.next)

section Convert

variable [DecidableEq φ] (E : Env) (T : Types φ)

/-- `ti_field_make_assignable` for a field without relation. A list of a thing without type
has no nested specification, so it is given as a value. -/
def assign (s : Memory φ) (t : ℕ) (f : φ) : Slot → Except Ex (Memory φ × Slot)
  | .val v =>
    match makeAssignable E T s.coll f t (.val v false) with
    | .error e => .error e
    | .ok (c, v) => .ok ({ s with kind := c.kind }, .val v)
  | .obj a =>
    match makeAssignable E T s.coll f t (.val (s.obj a).val ((s.obj a).ref ≠ 1)) with
    | .error e => .error e
    | .ok (c, v) =>
      let x := s.rebind t f a v
      .ok ({ x.1 with kind := c.kind }, x.2)

def isMutLocked (s : Memory φ) : Slot → Bool
  | .val _ => false
  | .obj a => (s.obj a).locked

def convertCb (s : Memory φ) (type : TypeId) (t : ℕ) (p : Raw × Slot) :
    Except Ex (Memory φ × φ × Slot) :=
  match T.byName type p.1 with
  | none =>
    .error ⟨.typeError, "conversion failed; type `" ++ E.typeName type ++ "` has no property `" ++
      E.text p.1 ++ "` but the thing you are trying to convert has"⟩
  | some f =>
    if T.rel f ≠ none then
      .error ⟨.typeError, "conversion failed; property `" ++ E.text (T.field f).name ++
        "` on type `" ++ E.typeName (T.field f).type ++
        "` has a relation and can therefore not be used as a type to convert to"⟩
    else if s.isMutLocked p.2 then
      .error ⟨.operation, "conversion failed; property `" ++ E.text (T.field f).name ++
        "` is in use"⟩
    else
      match s.assign E T t f p.2 with
      | .error e => .error e
      | .ok (s, x) => .ok (s, f, x)

/-- The loop over the properties, where the values are collected in `w`. -/
def convertItems (type : TypeId) (t : ℕ) :
    Memory φ → (φ → Option Slot) → List (Raw × Slot) → Memory φ × Except Ex (φ → Option Slot)
  | s, w, [] => (s, .ok w)
  | s, w, p :: items =>
    match s.convertCb E T type t p with
    | .error e => (s, .error e)
    | .ok (s, f, x) => convertItems type t s (Function.update w f (some x)) items

def convertDefault (dval : φ → Val) (t : ℕ) (x : Memory φ × (φ → Option Slot)) (f : φ) :
    Memory φ × (φ → Option Slot) :=
  match x.2 f, dval f with
  | some _, _ => x
  | none, v =>
    if v.tp = .arr ∨ v.tp = .set then
      (x.1.alloc t f v, Function.update x.2 f (some (.obj x.1.next)))
    else (x.1, Function.update x.2 f (some (.val v)))

def convert (dval : φ → Val) (s : Memory φ) (type : TypeId) (t : ℕ) : Memory φ × Option Ex :=
  match convertItems E T type t s (fun _ => none) (s.items t) with
  | (s, .error e) => (s, some e)
  | (s, .ok w) =>
    let x := (T.fields type).foldl (convertDefault dval t) (s, w)
    ({ x.1 with
      kind := Function.update x.1.kind t (.instance type)
      items := Function.update x.1.items t []
      vals := fun f a => if a = t then (x.2 f).getD (x.1.vals f a) else x.1.vals f a }, none)

/-- The tests of `do__f_to_type` before the conversion. The argument is evaluated before. -/
def toTypeTest (Q : Query) (s : Memory φ) (t : ℕ) (nargs : ℕ) (arg : Val) : Except Ex TypeId :=
  if Q.noCommit then
    .error ⟨.operation, "function `to_type` requires a commit before it can be used on the " ++
      "`root()` of a `" ++ Q.scopeName ++ "` scope with commit history enabled" ++
      docSee "collection-api/commit"⟩
  else if nargs ≠ 1 then
    .error (nargsError "to_type" (docSee "data-types/thing/to_type") 1 nargs)
  else if !Q.change ∧ s.id t ≠ 0 then
    .error ⟨.operation, "operation on a stored thing; " ++
      (if Q.nse then "remove `nse" else "use `wse") ++ "(...)` to enforce a change"⟩
  else if Q.locked then
    .error ⟨.operation, "cannot change type `" ++ (Val.thing t).typeStr E s.kind ++
      "` while the value is in use"⟩
  else if !arg.isStr then
    .error ⟨.typeError, "function `to_type` expects argument 1 to be of type `str` but got " ++
      "type `" ++ arg.typeStr E s.kind ++ "` instead" ++ docSee "data-types/thing/to_type"⟩
  else if s.kind t ≠ .object .any then
    .error ⟨.valueError, "conversion failed; the thing you try to convert has a value restriction"⟩
  else
    match Q.byRaw arg.data with
    | none =>
      .error (
        if !E.nameIsValid arg.data then
          ⟨.valueError, "type name must follow the naming rules" ++ docSee "overview/names"⟩
        else ⟨.lookupError, "type `" ++ E.text arg.data ++ "` not found"⟩)
    | some type =>
      if Q.wrapOnly type then
        .error ⟨.typeError, "type `" ++ E.typeName type ++ "` has wrap-only mode enabled"⟩
      else if Q.inUse type then
        .error ⟨.operation, "cannot use type `" ++ E.typeName type ++
          "` while the type is locked"⟩
      else .ok type

/-- `do__f_to_type`, where the result is `none` for an instance, on which it is a method. -/
def toType (dval : φ → Val) (Q : Query) (s : Memory φ) (t : ℕ) (nargs : ℕ) (arg : Val) :
    Option (Memory φ × Option Ex) :=
  match s.kind t with
  | .instance _ => none
  | .object _ =>
    match toTypeTest E Q s t nargs arg with
    | .error e => some (s, some e)
    | .ok type => some (convert E T dval s type t)

end Convert

/-- The lists and sets of a thing without type belong to it, by the name of the property. -/
def Bound (s : Memory φ) (t : ℕ) : Prop :=
  ∀ p ∈ s.items t, ∀ a, p.2 = .obj a →
    a < s.next ∧ 1 ≤ (s.obj a).ref ∧ (s.obj a).parent = some t ∧ (s.obj a).key = .name p.1

/-- Nothing has changed, for all things and for all lists and sets there were. -/
structure Unchanged (s s' : Memory φ) (t : ℕ) : Prop where
  kind : s'.kind = s.kind
  id : s'.id = s.id
  vals : s'.vals = s.vals
  items : s'.items = s.items
  obj : ∀ a < s.next, s'.obj a = s.obj a
  bound : s'.Bound t

section Conditions

variable [DecidableEq φ] (E : Env) (T : Types φ) (s : Memory φ) (type : TypeId) (t : ℕ)

def Accepts (p : Raw × Slot) : Bool := (s.convertCb E T type t p).isOk

/-- A property with neither a list, nor a set, nor a thing which gets the restriction of the
field. -/
def Quiet (p : Raw × Slot) : Prop :=
  ∃ v, p.2 = .val v ∧ ∀ f u, T.byName type p.1 = some f → (T.field f).base = .plain .object →
    (T.field f).nested ≠ .any → v = .thing u → s.kind u = .object (T.field f).nested

end Conditions

/-- A change which the rest of the conversion does not undo: a thing which got a restriction, or
a list or set which is bound to a field or has lost a reference. -/
def Spoiled (s s' : Memory φ) : Prop :=
  (∃ u spec, s.kind u = .object .any ∧ spec ≠ .any ∧ s'.kind u = .object spec) ∨
    ∃ a < s.next, (∃ name f, (s.obj a).key = .name name ∧ (s'.obj a).key = .field f) ∨
      (s'.obj a).ref < (s.obj a).ref

variable {s s' s₀ : Memory φ} {type : TypeId} {t a : ℕ} {f : φ}

theorem Unchanged.refl (hb : s.Bound t) : Unchanged s s t :=
  ⟨rfl, rfl, rfl, rfl, fun _ _ => rfl, hb⟩

theorem Spoiled.not_unchanged (h : Spoiled s s') : ¬ Unchanged s s' t := by
  intro hu
  rcases h with ⟨u, spec, hany, hspec, hk⟩ | ⟨a, ha, ⟨name, f, hname, hf⟩ | href⟩
  · rw [hu.kind, hany] at hk
    exact hspec (Kind.object.inj hk).symm
  · rw [hu.obj a ha, hname] at hf
    cases hf
  · rw [hu.obj a ha] at href
    exact lt_irrefl _ href

section Rebind

variable {v : Val} {b : ℕ}

theorem le_next_rebind : s.next ≤ (s.rebind t f a v).1.next := by
  unfold rebind
  simp only
  split_ifs
  · exact le_rfl
  · exact Nat.le_succ _

/-- Of the allocated lists and sets only the one of the property changes. -/
theorem rebind_of_ne (hb : b < s.next) (hne : b ≠ a) : (s.rebind t f a v).1.obj b = s.obj b := by
  unfold rebind
  simp only
  split_ifs
  · exact update_of_ne hne _ _
  · simp only [alloc]
    rw [update_of_ne (by omega), update_of_ne hne]

theorem rebind_self (ha : a < s.next) :
    (∃ g, ((s.rebind t f a v).1.obj a).key = .field g ∧
        ((s.rebind t f a v).1.obj a).ref = (s.obj a).ref) ∨
      ((s.rebind t f a v).1.obj a).key = (s.obj a).key ∧ (s.obj a).ref ≠ 1 ∧
        ((s.rebind t f a v).1.obj a).ref = (s.obj a).ref - 1 := by
  unfold rebind
  simp only
  split_ifs with href
  · exact .inl ⟨f, by simp⟩
  · have hne : a ≠ s.next := by omega
    exact .inr (by simp [alloc, hne, href])

end Rebind

variable [DecidableEq φ] {E : Env} {T : Types φ} {p : Raw × Slot} {x : Slot}
  {items : List (Raw × Slot)} {w : φ → Option Slot}

theorem makeAssignable_of_rel {c c' : Collection φ} {r : Rval φ} {v : Val} (hrel : T.rel f = none)
    (h : makeAssignable E T c f t r = .ok (c', v)) :
    c' = c ∨ ∃ u, c'.kind = update c.kind u (.object (T.field f).nested) ∧
      c.kind u = .object .any ∧ (T.field f).base = .plain .object ∧ (T.field f).nested ≠ .any ∧
        r.get c = .thing u := by
  unfold makeAssignable at h
  rw [if_neg (by simp [hrel])] at h
  split_ifs at h with hnil
  · exact .inl (by simpa using h.symm : _ ∧ _).1
  · rcases plain_cases h with rfl | ⟨u, rfl, hany, -, hb, hn, hr⟩
    · exact .inl rfl
    · exact .inr ⟨u, rfl, hany, hb, hn, hr⟩

/-- A thing which is accepted has the restriction of the field afterwards. -/
theorem kind_of_makeAssignable {c c' : Collection φ} {u : ℕ} {v : Val} (hrel : T.rel f = none)
    (hb : (T.field f).base = .plain .object) (hn : (T.field f).nested ≠ .any)
    (h : makeAssignable E T c f t (.val (.thing u) false) = .ok (c', v)) :
    c.kind u = .object (T.field f).nested ∨
      c.kind u = .object .any ∧ c'.kind u = .object (T.field f).nested := by
  unfold makeAssignable at h
  rw [if_neg (by simp [hrel]), if_neg (by simp [Rval.get, Val.tp])] at h
  simp only [plainAssign, hb, Rval.get, if_neg hn] at h
  obtain ⟨-, ⟨-, hk⟩ | ⟨rfl, hk, -⟩⟩ := thingAssign_ok h
  · exact .inl hk
  · exact .inr ⟨hk, by simp⟩

/-- What `type__convert_cb` does when it succeeds: a value can only give a thing a restriction,
and a list or set is bound to the field. -/
theorem convertCb_ok (h : s.convertCb E T type t p = .ok (s', f, x)) :
    T.byName type p.1 = some f ∧ T.rel f = none ∧
      ((∃ v c w, p.2 = .val v ∧ makeAssignable E T s.coll f t (.val v false) = .ok (c, w) ∧
          s' = { s with kind := c.kind }) ∨
        ∃ a c w, p.2 = .obj a ∧
          makeAssignable E T s.coll f t (.val (s.obj a).val ((s.obj a).ref ≠ 1)) = .ok (c, w) ∧
            s' = { (s.rebind t f a w).1 with kind := c.kind }) := by
  unfold convertCb at h
  cases hf : T.byName type p.1 with
  | none => simp [hf] at h
  | some g =>
    simp only [hf] at h
    split_ifs at h with hrel hlock
    cases hp : p.2 with
    | val v =>
      cases hm : makeAssignable E T s.coll g t (.val v false) with
      | error e => simp [assign, hp, hm] at h
      | ok y =>
        obtain ⟨c, w⟩ := y
        simp only [assign, hp, hm, Except.ok.injEq, Prod.mk.injEq] at h
        obtain ⟨rfl, rfl, -⟩ := h
        exact ⟨rfl, not_not.mp hrel, .inl ⟨v, c, w, rfl, hm, rfl⟩⟩
    | obj a =>
      cases hm : makeAssignable E T s.coll g t (.val (s.obj a).val ((s.obj a).ref ≠ 1)) with
      | error e => simp only [assign, hp, hm, reduceCtorEq] at h
      | ok y =>
        obtain ⟨c, w⟩ := y
        simp only [assign, hp, hm, Except.ok.injEq, Prod.mk.injEq] at h
        obtain ⟨rfl, rfl, -⟩ := h
        exact ⟨rfl, not_not.mp hrel, .inr ⟨a, c, w, rfl, hm, rfl⟩⟩

theorem kind_convertCb {u : ℕ} {spec : Spec}
    (h : s.convertCb E T type t p = .ok (s', f, x)) (hk : s.kind u = .object spec)
    (hspec : spec ≠ .any) : s'.kind u = .object spec := by
  have hkeep : ∀ {c : Collection φ} {r : Rval φ} {w : Val}, T.rel f = none →
      makeAssignable E T s.coll f t r = .ok (c, w) → c.kind u = .object spec := by
    intro c r w hrel hm
    rcases makeAssignable_of_rel hrel hm with rfl | ⟨u', hc, hany, -⟩
    · exact hk
    · have hne : u ≠ u' := by
        rintro rfl
        exact hspec (Kind.object.inj (hk.symm.trans hany))
      rw [hc, update_of_ne hne]
      exact hk
  obtain ⟨-, hrel, ⟨v, c, w, -, hm, rfl⟩ | ⟨a, c, w, -, hm, rfl⟩⟩ := convertCb_ok h
  · exact hkeep hrel hm
  · exact hkeep hrel hm

theorem le_next_convertCb (h : s.convertCb E T type t p = .ok (s', f, x)) : s.next ≤ s'.next := by
  obtain ⟨-, -, ⟨v, c, w, -, -, rfl⟩ | ⟨a, c, w, -, -, rfl⟩⟩ := convertCb_ok h
  · exact le_rfl
  · exact le_next_rebind

theorem Spoiled.convertCb (hs : Spoiled s₀ s) (hn : s₀.next ≤ s.next)
    (h : s.convertCb E T type t p = .ok (s', f, x)) : Spoiled s₀ s' := by
  rcases hs with ⟨u, spec, hany, hspec, hk⟩ | ⟨a, ha, hobj⟩
  · exact .inl ⟨u, spec, hany, hspec, kind_convertCb h hk hspec⟩
  · right
    refine ⟨a, ha, ?_⟩
    obtain ⟨-, -, ⟨v, c, w, -, -, rfl⟩ | ⟨b, c, w, -, -, rfl⟩⟩ := convertCb_ok h
    · exact hobj
    · by_cases hab : a = b
      · subst hab
        have hself := rebind_self (t := t) (f := f) (v := w) (ha.trans_le hn)
        rcases hobj with ⟨name, g, hname, hg⟩ | href
        · rcases hself with ⟨g', hg', -⟩ | ⟨hkey, -⟩
          · exact .inl ⟨name, g', hname, hg'⟩
          · exact .inl ⟨name, g, hname, hkey.trans hg⟩
        · right
          rcases hself with ⟨-, -, hr⟩ | ⟨-, -, hr⟩
          · exact hr ▸ href
          · rw [hr]
            exact (Nat.sub_le _ _).trans_lt href
      · rw [rebind_of_ne (ha.trans_le hn) hab]
        exact hobj

theorem Spoiled.convertItems (hs : Spoiled s₀ s)
    (hn : s₀.next ≤ s.next) : Spoiled s₀ (convertItems E T type t s w items).1 := by
  induction items generalizing s w with
  | nil => exact hs
  | cons p items ih =>
    simp only [Memory.convertItems]
    cases h : s.convertCb E T type t p with
    | error e => exact hs
    | ok y =>
      obtain ⟨s', f, x⟩ := y
      exact ih (hs.convertCb hn h) (hn.trans (le_next_convertCb h))

theorem convertCb_quiet (hq : s.Quiet T type p)
    (h : s.convertCb E T type t p = .ok (s', f, x)) : s' = s := by
  obtain ⟨v, hv, hthing⟩ := hq
  obtain ⟨hf, hrel, ⟨v', c, w, hv', hm, rfl⟩ | ⟨a, c, w, ha, -⟩⟩ := convertCb_ok h
  · obtain rfl : v = v' := by simpa using hv.symm.trans hv'
    rcases makeAssignable_of_rel hrel hm with rfl | ⟨u, -, hany, hb, hn, hr⟩
    · rfl
    · have hk := hthing f u hf hb hn hr
      exact absurd (Kind.object.inj (hany.symm.trans hk)).symm hn
  · simp [hv] at ha

theorem convertCb_not_quiet (hq : ¬ s.Quiet T type p)
    (hb : ∀ a, p.2 = .obj a → a < s.next ∧ 1 ≤ (s.obj a).ref ∧ (s.obj a).key = .name p.1)
    (h : s.convertCb E T type t p = .ok (s', f, x)) : Spoiled s s' := by
  obtain ⟨hf, hrel, ⟨v, c, w, hv, hm, rfl⟩ | ⟨a, c, w, ha, -, rfl⟩⟩ := convertCb_ok h
  · simp only [Quiet, not_exists, not_and, not_forall] at hq
    obtain ⟨g, u, hg, hbase, hn, rfl, hk⟩ := hq v hv
    obtain rfl : f = g := by simpa using hf.symm.trans hg
    rcases kind_of_makeAssignable hrel hbase hn hm with hkind | ⟨hany, hkind⟩
    · exact absurd hkind hk
    · exact .inl ⟨u, _, hany, hn, hkind⟩
  · obtain ⟨hlt, href, hkey⟩ := hb a ha
    right
    refine ⟨a, hlt, ?_⟩
    rcases rebind_self (t := t) (f := f) (v := w) hlt with ⟨g, hg, -⟩ | ⟨-, -, hr⟩
    · exact .inl ⟨p.1, g, hkey, hg⟩
    · right
      rw [hr]
      exact Nat.sub_one_lt_of_le href le_rfl

theorem accepts_iff :
    s.Accepts E T type t p ↔ ∃ s' f x, s.convertCb E T type t p = .ok (s', f, x) := by
  unfold Accepts
  cases s.convertCb E T type t p with
  | error e => simp [Except.isOk, Except.toBool]
  | ok y =>
    obtain ⟨s', f, x⟩ := y
    simp [Except.isOk, Except.toBool]

/-- If the properties before the first one which is not accepted are quiet, then a conversion
which fails leaves everything as it is. -/
theorem convertItems_quiet {e : Ex}
    (hq : ∀ p ∈ items.takeWhile (s.Accepts E T type t), s.Quiet T type p)
    (h : convertItems E T type t s w items = (s', .error e)) : s' = s := by
  induction items generalizing w with
  | nil => simp [Memory.convertItems] at h
  | cons p items ih =>
    simp only [Memory.convertItems] at h
    cases hp : s.convertCb E T type t p with
    | error e' =>
      simp only [hp, Prod.mk.injEq] at h
      exact h.1.symm
    | ok y =>
      obtain ⟨s₁, f, x⟩ := y
      simp only [hp] at h
      rw [takeWhile_cons_of_pos (accepts_iff.mpr ⟨s₁, f, x, hp⟩)] at hq
      obtain rfl := convertCb_quiet (hq p mem_cons_self) hp
      exact ih (fun q hmem => hq q (mem_cons_of_mem p hmem)) h

theorem convertItems_not_quiet (hb : ∀ p ∈ items, ∀ a, p.2 = .obj a →
      a < s.next ∧ 1 ≤ (s.obj a).ref ∧ (s.obj a).key = .name p.1)
    (hq : ∃ p ∈ items.takeWhile (s.Accepts E T type t), ¬ s.Quiet T type p) :
    Spoiled s (convertItems E T type t s w items).1 := by
  induction items generalizing w with
  | nil => simp at hq
  | cons p items ih =>
    obtain ⟨q, hmem, hnq⟩ := hq
    have hacc : s.Accepts E T type t p = true := by
      by_contra hacc
      simp [takeWhile_cons_of_neg hacc] at hmem
    obtain ⟨s₁, f, x, hp⟩ := accepts_iff.mp hacc
    simp only [Memory.convertItems, hp]
    by_cases hquiet : s.Quiet T type p
    · obtain rfl := convertCb_quiet hquiet hp
      rw [takeWhile_cons_of_pos hacc] at hmem
      have hne : q ≠ p := by
        rintro rfl
        exact hnq hquiet
      exact ih (fun r hr => hb r (mem_cons_of_mem p hr))
        ⟨q, (mem_cons.mp hmem).resolve_left hne, hnq⟩
    · exact (convertCb_not_quiet hquiet (hb p mem_cons_self) hp).convertItems
        (le_next_convertCb hp)

theorem convert_error {dval : φ → Val} {e : Ex} (h : convert E T dval s type t = (s', some e)) :
    convertItems E T type t s (fun _ => none) (s.items t) = (s', .error e) := by
  unfold convert at h
  split at h
  · rename_i s₁ e₁ heq
    simp only [Prod.mk.injEq, Option.some.injEq] at h
    rw [heq, h.1, h.2]
  · simp at h

/-- A call of `to_type` which fails changes nothing, exactly if it fails before the conversion
or if the properties before the first one which is not accepted are quiet. -/
theorem toType_unchanged_iff {dval : φ → Val} {Q : Query} {nargs : ℕ} {arg : Val} {e : Ex}
    (hb : s.Bound t) (h : toType E T dval Q s t nargs arg = some (s', some e)) :
    Unchanged s s' t ↔ ∀ type, toTypeTest E Q s t nargs arg = .ok type →
      ∀ p ∈ (s.items t).takeWhile (s.Accepts E T type t), s.Quiet T type p := by
  unfold toType at h
  cases hk : s.kind t with
  | «instance» type => simp [hk] at h
  | object spec =>
    simp only [hk] at h
    cases htest : toTypeTest E Q s t nargs arg with
    | error e' =>
      simp only [htest, Option.some.injEq, Prod.mk.injEq] at h
      obtain ⟨rfl, -⟩ := h
      simp [Unchanged.refl hb]
    | ok type =>
      simp only [htest, Option.some.injEq] at h
      have hitems := convert_error h
      constructor
      · intro hu type' htype p hp
        obtain rfl := Except.ok.inj htype
        by_contra hnq
        have hspoiled := convertItems_not_quiet (w := fun _ => none)
          (fun p hp a ha => ⟨(hb p hp a ha).1, (hb p hp a ha).2.1, (hb p hp a ha).2.2.2⟩)
          ⟨p, hp, hnq⟩
        rw [hitems] at hspoiled
        exact hspoiled.not_unchanged hu
      · intro hq
        obtain rfl := convertItems_quiet (hq type rfl) hitems
        exact Unchanged.refl hb

end Memory

/-- A type with a property `a` with definition `any` and `b` with definition `str`. -/
def pairField (b : Bool) : Field where
  type := 0
  name := if b then [98] else [97]
  specRaw := if b then [115, 116, 114] else [97, 110, 121]
  base := .plain (if b then .str else .any)
  nillable := false
  nested := .any
  nested_of_arr := by cases b <;> simp
  nested_any := by simp

def pairTypes : Types Bool := .single pairField [false, true] (fun _ => rfl) fun f type => by
  cases f <;> simp [Field.Uses, pairField, Spec.any]

/-- Things with an empty list as `a` and an integer as `b`, in this order or in the other. -/
def pairs (swap : Bool) : Memory Bool where
  kind _ := .object .any
  id _ := 0
  vals _ _ := .val .nil
  items t :=
    if t = 0 then
      if swap then [([98], .val (.int 5)), ([97], .obj 0)]
      else [([97], .obj 0), ([98], .val (.int 5))]
    else []
  obj _ := ⟨.arr ⟨false, false, false⟩ [], 1, some 0, .name [97], false⟩
  next := 1

theorem pairs_bound (swap : Bool) : (pairs swap).Bound 0 := by
  intro p hp a ha
  cases swap <;> simp [pairs] at hp ⊢ <;> rcases hp with rfl | rfl <;> simp_all

def pairQuery : Query where
  change := true
  nse := false
  noCommit := false
  scopeName := ""
  locked := false
  byRaw _ := some 0
  wrapOnly _ := false
  inUse _ := false

/-- The list is no longer bound to its property, as the conversion fails on the next one. -/
theorem to_type_leaves_field_key : (pairs false).Bound 0 ∧
    ∃ s' e, Memory.toType default pairTypes (fun _ => .nil) pairQuery (pairs false) 0 1
        (.str [84]) = some (s', some e) ∧ (s'.obj 0).key = .field false ∧ ¬ s'.Bound 0 := by
  refine ⟨pairs_bound false, _, _, rfl, rfl, ?_⟩
  intro hb
  have hkey := (hb ([97], .obj 0) List.mem_cons_self 0 rfl).2.2.2
  cases hkey

theorem to_type_unchanged_swapped : (pairs true).Bound 0 ∧
    ∃ s' e, Memory.toType default pairTypes (fun _ => .nil) pairQuery (pairs true) 0 1
        (.str [84]) = some (s', some e) ∧ Memory.Unchanged (pairs true) s' 0 := by
  obtain ⟨e, h⟩ : ∃ e, Memory.toType default pairTypes (fun _ => .nil) pairQuery (pairs true) 0 1
      (.str [84]) = some (pairs true, some e) := ⟨_, rfl⟩
  refine ⟨pairs_bound true, _, e, h, ?_⟩
  refine (Memory.toType_unchanged_iff (pairs_bound true) h).mpr ?_
  intro type htype p hp
  obtain rfl : (0 : TypeId) = type := Except.ok.inj htype
  cases hp

end ThingsDB.Typed
