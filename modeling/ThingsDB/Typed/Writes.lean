import ThingsDB.Lists.Index
import ThingsDB.Typed.Conform

/-!
# Which writes conform

An assignment with `=` to a property of an instance always conforms. The result of an
operator and the elements of a slice are stored without a check, `ti_val_is_spec` takes
some members for other values, and `to_thing` does not look for things which are
restricted to the type.
-/

namespace ThingsDB.Typed

open Util Relations List

variable {φ : Type}

section Condition

variable (E : Env) (T : Types φ) (c : Collection φ)

/-- The result of an operator is defined, and conforms unless it is a set. -/
def FitsOpr (P : Val → Prop) (res : Option (Except Ex Val)) : Prop :=
  ∃ r, res = some r ∧ ∀ x, Opr.Scalar x → r = .ok x → P x

/-- The condition for a write to a property of `t`. -/
def FitsProp (t : ℕ) (key : Raw) (opr : Option OprToken) (r : Rval φ) : Prop :=
  match opr, c.kind t with
  | none, .object spec => ¬ spec.Confused (r.get c)
  | none, .instance _ => True
  | some opr, .object spec => ∀ a, (c.props t).lookup key = some a →
      FitsOpr (spec.Holds E c.kind)
        (Opr.aToB E (fun t => (c.kind t).type?) (fun _ _ => none) a (r.get c) opr)
  | some opr, .instance type => ∀ f, T.byName type key = some f →
      FitsOpr ((T.field f).Holds E c.kind) (Opr.aToB E (fun t => (c.kind t).type?)
        ((T.schema E).vsetPreAssignCheck (things E c) f t) (c.vals f t) (r.get c) opr)

/-- The condition for a write to a list with the given specification, where `own` tells if the
right side is the list itself. -/
def FitsList (spec : Spec) (vec : List Val) (opr : Option OprToken) (v : Val) (own : Bool) :
    Index → Prop
  | .at idx =>
    match opr with
    | none => ¬ spec.Confused v
    | some opr => ∀ i x, Lists.numeric E c.kind (.ok idx) vec.length = .ok i →
        Opr.aToB E (fun t => (c.kind t).type?) (fun _ _ => none) (vec.getD i .nil) v opr =
          some (.ok x) → spec.Holds E c.kind x
  | .slice _ _ _ => own = true ∨
      ∀ flags new, v = .arr flags new → ∀ x ∈ new, spec.Holds E c.kind x

/-- The condition for a write by index, where a list which is not a property may have any
elements. The write to a list is defined if the operator is, and if the list is not assigned to a
slice of itself which overlaps it. -/
def FitsIndex [DecidableEq φ] (x : Place) (opr : Option OprToken) (r : Rval φ) (i : Index) : Prop :=
  match x.get E T c, i with
  | .ok (_, .thing t), .at key => FitsProp E T c t key.data opr r
  | .ok (spec, .arr flags vec), i =>
    listAss E c spec ⟨flags, vec⟩ opr (r.get c) (x.isOwn T c r) i ≠ none ∧
      ∀ t name, x = .prop t name → FitsList E c spec vec opr (r.get c) (x.isOwn T c r) i
  | _, _ => True

/-- The condition on an operation for all values to conform afterwards. -/
def Fits [DecidableEq φ] : Op φ → Prop
  | .nameAssign (.thing t) name opr r => FitsProp E T c t name opr r
  | .nameAssign _ _ _ _ => True
  | .index x i opr r => FitsIndex E T c x opr r i
  | .toThing t type _ => c.kind t = .instance type ∧
      ∀ a spec, c.kind a = .object spec → spec.base = .typeId type →
        ∀ kv ∈ c.props a, kv.2 ≠ .thing t

end Condition

variable {E : Env} {T : Types φ} {c c' : Collection φ} {f : φ} {t : ℕ} {v : Val} {spec : Spec}
variable {r : Rval φ} {kind : ℕ → Kind}
variable {key : Raw} {opr : Option OprToken} {type : TypeId} {props : List (Raw × Val)}

theorem fitsOpr_ok {P : Val → Prop} : FitsOpr P (some (.ok v)) ↔ (Opr.Scalar v → P v) := by
  constructor
  · rintro ⟨_, ⟨⟩, h⟩ hv
    exact h v hv rfl
  · exact fun h => ⟨_, rfl, fun x hx hxv => Except.ok.inj hxv ▸ h (Except.ok.inj hxv ▸ hx)⟩

theorem fitsProp_of_object (ht : c.kind t = .object spec) :
    FitsProp E T c t key none r ↔ ¬ spec.Confused (r.get c) := by
  simp [FitsProp, ht]

theorem fitsProp_of_instance (ht : c.kind t = .instance type) : FitsProp E T c t key none r := by
  simp [FitsProp, ht]

theorem mem_of_lookup (h : props.lookup key = some v) : (key, v) ∈ props := by
  obtain ⟨l₁, l₂, rfl, -⟩ := lookup_eq_some_iff.mp h
  simp

theorem mem_setKey {kv : Raw × Val} (h : kv ∈ setKey key v props) : kv.2 = v ∨ kv ∈ props := by
  induction props with
  | nil => simp_all [setKey]
  | cons kw props ih =>
    simp only [setKey] at h
    split_ifs at h
    · rcases mem_cons.mp h with rfl | h
      · exact .inl rfl
      · exact .inr (mem_cons_of_mem _ h)
    · rcases mem_cons.mp h with rfl | h
      · exact .inr mem_cons_self
      · rcases ih h with h | h
        · exact .inl h
        · exact .inr (mem_cons_of_mem _ h)

theorem exists_mem_setKey (key : Raw) (v : Val) (props : List (Raw × Val)) :
    ∃ k, (k, v) ∈ setKey key v props := by
  induction props with
  | nil => exact ⟨key, by simp [setKey]⟩
  | cons kw props ih =>
    obtain ⟨k, hk⟩ := ih
    simp only [setKey]
    split_ifs
    · exact ⟨kw.1, mem_cons_self⟩
    · exact ⟨k, mem_cons_of_mem _ hk⟩

theorem conforms_setProp_iff (h : Conforms E T c) (ht : c.kind t = .object spec) :
    Conforms E T (setProp c t key v) ↔ spec.Holds E c.kind v := by
  constructor
  · intro h'
    obtain ⟨k, hk⟩ := exists_mem_setKey key v (c.props t)
    exact h'.restricted t spec ht (k, v) (by simpa [setProp] using hk)
  · intro hv
    constructor
    · exact h.typed
    · intro a s ha kv hkv
      by_cases hat : a = t
      · subst hat
        obtain rfl : s = spec := by simpa using ha.symm.trans ht
        rcases mem_setKey (by simpa [setProp] using hkv) with heq | hkv
        · rw [heq]
          exact hv
        · exact h.restricted a s ha kv hkv
      · exact h.restricted a s ha kv (by simpa [setProp, hat] using hkv)

/-- A value which `ti_val_is_spec` accepts conforms when it is stored, unless it is a member
which is taken for something else. -/
theorem holds_valMakeAssignable_iff {shared : Bool} (h : v.isSpec E kind spec) :
    spec.Holds E kind (valMakeAssignable v shared) ↔ ¬ spec.Confused v := by
  rw [← holds_iff_of_isSpec h]
  cases v with
  | arr flags vec => exact or_congr Iff.rfl Lists.holds_arr
  | future | module =>
    have hv := (holds_iff_of_isSpec h).mpr (fun hc => by simpa [Val.enumEq] using hc.2.1)
    apply iff_of_true _ hv
    rcases hv with hv | hv
    · simp [Val.tp] at hv
    · right
      cases hb : spec.base <;> simp_all [Base.Holds, Val.tp, Val.isStr, Val.isRaw, Val.isNumber,
        Val.isDatetimeStrict, Val.isTimeval]
  | _ => rfl

theorem holds_set {b : Base} {m m' : Imap} :
    b.Holds E kind (.set m) ↔ b.Holds E kind (.set m') := by
  cases b <;> simp [Base.Holds, Val.tp, Val.isStr, Val.isRaw, Val.isNumber, Val.isDatetimeStrict,
    Val.isTimeval]

theorem conforms_oSetVal_iff (h : Conforms E T c) (ht : c.kind t = .object spec)
    (ho : oSetVal E c t spec key r = .ok c') : Conforms E T c' ↔ ¬ spec.Confused (r.get c) := by
  unfold oSetVal at ho
  split_ifs at ho with hs
  obtain rfl : setProp c t key _ = c' := by simpa using ho
  rw [conforms_setProp_iff h ht, holds_valMakeAssignable_iff hs]

theorem oSetVal_of_oSetKey (ho : oSetKey E c t spec key r = .ok c') :
    oSetVal E c t spec key r = .ok c' := by
  unfold oSetKey at ho
  cases hs : oSetVal E c t spec key r with
  | error e => simp [hs, bind, Except.bind] at ho
  | ok c'' =>
    simp only [hs, bind, Except.bind, pure, Except.pure] at ho
    split_ifs at ho <;> exact ho

section Instance

theorem byName_type [DecidableEq φ] (h : T.byName type key = some f) : (T.field f).type = type :=
  T.fields_type type f (mem_of_find?_eq_some h)

variable [DecidableEq φ]

theorem conforms_setField_iff (h : Conforms E T c) (ht : c.kind t = .instance (T.field f).type) :
    Conforms E T (setField c f t v) ↔ (T.field f).Holds E c.kind v := by
  constructor
  · intro h'
    simpa [setField] using h'.typed f t ht
  · intro hv
    constructor
    · intro k a ha
      by_cases hka : k = f ∧ a = t
      · obtain ⟨rfl, rfl⟩ := hka
        simpa [setField] using hv
      · simpa [setField, hka] using h.typed k a ha
    · exact h.restricted

theorem conforms_tSetVal (h : Conforms E T c) (ht : c.kind t = .instance type)
    (ho : tSetVal E T c t type key r = .ok c') : Conforms E T c' := by
  unfold tSetVal fieldByStrn at ho
  cases hf : T.byName type key with
  | none => simp [hf, bind, Except.bind] at ho
  | some f =>
    rw [← byName_type hf] at ht
    cases ha : makeAssignable E T c f t r with
    | error e => simp [hf, ha, bind, Except.bind] at ho
    | ok cv =>
      obtain ⟨h', hv, ht'⟩ := makeAssignable_ok h ht ha
      simp only [hf, ha, bind, Except.bind, pure, Except.pure, Except.ok.injEq] at ho
      rw [← ho, conforms_setField_iff h' ht']
      exact hv

omit [DecidableEq φ] in
/-- The set of an operator has been checked, or it is a part of the old one. -/
theorem holds_of_setOp {op : Schema.SetOp} {m m' : Imap}
    (hset : (T.field f).Holds E c.kind (.set m))
    (hpre : (T.schema E).vsetPreAssignCheck (things E c) f t (op.apply m m') op.doTypeCheck =
      none) :
    (T.field f).Holds E c.kind (.set (op.apply m m')) := by
  rcases holds_set_iff.mp hset with hb | ⟨hb, hm⟩
  · exact holds_set_iff.mpr (.inl hb)
  · refine holds_set_iff.mpr (.inr ⟨hb, ?_⟩)
    intro x hx
    unfold Schema.vsetPreAssignCheck at hpre
    split_ifs at hpre with hskip
    · rcases hskip with hnone | hnil
      · have hany : (T.field f).nested = .any := by
          simpa [Types.schema, Types.target, hb] using hnone
        rw [hany]
        exact holds_any
      · rw [Imap.mem_def, hnil] at hx
        simp at hx
    · cases op with
      | and => exact hm x (Imap.mem_inter.mp hx).1
      | sub => exact hm x (Imap.mem_diff.mp hx).1
      | or | xor =>
        have htype := typed_of_setCheck hpre rfl x hx
        apply holds_of_typeId
        simp only [Types.schema, Types.target, hb] at htype
        split_ifs at htype
        exact (Option.some.inj htype).symm

section

variable (h : Conforms E T c) (ht : c.kind t = .instance (T.field f).type)

include h ht

theorem Conforms.relate (m : Imap) :
    Conforms E T { c with vals := Typed.restore c T ((T.schema E).relate (view c) f t m) } := by
  cases hrel : T.rel f with
  | none =>
    apply h.restore
    · intro k _
      simp [Schema.relate, Types.schema, hrel]
    · intro k l _ a x hx
      simp only [Schema.relate, Types.schema, hrel] at hx
      exact .inl hx
  | some g =>
    apply h.restore_of_adds hrel ht
    · exact adds_relate hrel
    · exact fun k hk hkr => relate_other hk hkr (view c) t m

theorem conforms_tUpdate_iff {opr : OprToken} {b : Val}
    (ho : tUpdate E T c t f opr b = some (.ok c')) :
    Conforms E T c' ↔ FitsOpr ((T.field f).Holds E c.kind) (Opr.aToB E (fun t => (c.kind t).type?)
      ((T.schema E).vsetPreAssignCheck (things E c) f t) (c.vals f t) b opr) := by
  unfold tUpdate at ho
  cases hx : Opr.aToB E (fun t => (c.kind t).type?)
      ((T.schema E).vsetPreAssignCheck (things E c) f t) (c.vals f t) b opr with
  | none => simp [hx] at ho
  | some e =>
    cases e with
    | error e => simp [hx] at ho
    | ok x =>
      have hiff : Conforms E T c' ↔ (T.field f).Holds E c.kind x := by
        simp only [hx, Option.map_some, Option.some.injEq] at ho
        split at ho
        next => simp at ho
        next heq =>
          obtain rfl := Except.ok.inj heq
          obtain rfl := Except.ok.inj ho
          exact conforms_setField_iff (h.relate ht _) ht
        next heq =>
          obtain rfl := Except.ok.inj heq
          obtain rfl := Except.ok.inj ho
          exact conforms_setField_iff h ht
      rw [hiff, fitsOpr_ok]
      constructor
      · exact fun hv _ => hv
      · intro hfits
        rcases Opr.gives_aToB x hx with hs | ⟨op, m, m', hm, rfl, hpre⟩
        · exact hfits hs
        · have hset := h.typed f t ht
          rw [hm] at hset
          exact holds_of_setOp hset hpre

end

omit [DecidableEq φ] in
theorem conforms_oUpdate_iff {opr : OprToken} {a b : Val} (h : Conforms E T c)
    (ht : c.kind t = .object spec) (ha : (c.props t).lookup key = some a)
    (ho : oUpdate E c t key a opr b = some (.ok c')) :
    Conforms E T c' ↔ FitsOpr (spec.Holds E c.kind)
      (Opr.aToB E (fun t => (c.kind t).type?) (fun _ _ => none) a b opr) := by
  unfold oUpdate at ho
  cases hx : Opr.aToB E (fun t => (c.kind t).type?) (fun _ _ => none) a b opr with
  | none => simp [hx] at ho
  | some e =>
    cases e with
    | error e => simp [hx] at ho
    | ok x =>
      obtain rfl : setProp c t key x = c' := by simpa [hx] using ho
      rw [conforms_setProp_iff h ht, fitsOpr_ok]
      constructor
      · exact fun hv _ => hv
      · intro hfits
        rcases Opr.gives_aToB x hx with hs | ⟨op, m, m', rfl, rfl, -⟩
        · exact hfits hs
        · exact (or_congr Iff.rfl holds_set).mp (h.restricted t spec ht _ (mem_of_lookup ha))

theorem conforms_updProp_iff {opr : OprToken} {notFound : NotFound} (h : Conforms E T c)
    (ho : updProp E T c t key opr (r.get c) notFound = some (.ok c')) :
    Conforms E T c' ↔ FitsProp E T c t key (some opr) r := by
  unfold updProp at ho
  unfold FitsProp
  cases hk : c.kind t with
  | object spec =>
    simp only [hk] at ho ⊢
    cases ha : (c.props t).lookup key with
    | none => simp [ha] at ho
    | some a =>
      simp only [ha, Option.some.injEq, forall_eq'] at ho ⊢
      exact conforms_oUpdate_iff h hk ha ho
  | «instance» type =>
    simp only [hk] at ho ⊢
    cases hf : T.byName type key with
    | none => simp [hf] at ho
    | some f =>
      simp only [hf, Option.some.injEq, forall_eq'] at ho ⊢
      rw [← byName_type hf] at hk
      exact conforms_tUpdate_iff h hk ho

theorem conforms_indexSet_iff {key : Val} (h : Conforms E T c)
    (ho : indexSet E T c t key opr r = some (.ok c')) :
    Conforms E T c' ↔ FitsProp E T c t key.data opr r := by
  unfold indexSet at ho
  split_ifs at ho
  · simp at ho
  · cases opr with
    | some opr => exact conforms_updProp_iff h ho
    | none =>
      cases hk : c.kind t with
      | object spec =>
        simp only [hk, Option.some.injEq] at ho
        rw [fitsProp_of_object hk]
        exact conforms_oSetVal_iff h hk (oSetVal_of_oSetKey ho)
      | «instance» type =>
        simp only [hk, Option.some.injEq] at ho
        exact iff_of_true (conforms_tSetVal h hk ho) (fitsProp_of_instance hk)

theorem conforms_nameAssign_iff {x : Val} {name : Raw} (h : Conforms E T c)
    (ho : nameAssign E T c x name opr r = some (.ok c')) :
    Conforms E T c' ↔ Fits E T c (.nameAssign x name opr r) := by
  cases x with
  | thing t =>
    unfold nameAssign at ho
    change _ ↔ FitsProp E T c t name opr r
    cases opr with
    | some opr => exact conforms_updProp_iff h ho
    | none =>
      cases hk : c.kind t with
      | object spec =>
        simp only [hk, Option.some.injEq] at ho
        rw [fitsProp_of_object hk]
        exact conforms_oSetVal_iff h hk ho
      | «instance» type =>
        simp only [hk, Option.some.injEq] at ho
        exact iff_of_true (conforms_tSetVal h hk ho) (fitsProp_of_instance hk)
  | _ => simp [nameAssign] at ho

end Instance

section Lists

/-- What `ti_val_varr_prepare` accepts conforms, unless it is a member which is taken for
something else. -/
theorem holds_prepare_iff {flags : ArrFlags} {x : ArrFlags × Val} (hset : spec.base ≠ .set)
    (h : Lists.prepare E kind spec flags v = .ok x) :
    spec.Holds E kind x.2 ↔ ¬ spec.Confused v := by
  rcases Lists.prepare_cases h with ⟨hs, rfl⟩ | ⟨hs, hv, rfl⟩
  · rw [← holds_iff_of_isSpec hs]
    by_cases hany : spec = .any
    · simp [hany]
    · have helem := Lists.elem_of_accepts hset hany (Lists.accepts_of_isSpec hs)
      cases v with
      | arr f vec => exact or_congr Iff.rfl Lists.holds_arr
      | set | future | module => simp [Lists.Elem, Val.tp] at helem
      | _ => rfl
  · apply iff_of_true hv
    intro hc
    simp [Lists.isSpec_of_confused hc] at hs

theorem forall_mem_set_iff {P : Val → Prop} {l : List Val} {i : ℕ} (hi : i < l.length)
    (hl : ∀ x ∈ l, P x) : (∀ x ∈ l.set i v, P x) ↔ P v := by
  constructor
  · exact fun h => h v (List.mem_set hi v)
  · intro hv x hx
    rcases mem_or_eq_of_mem_set hx with hx | rfl
    · exact hl x hx
    · exact hv

theorem holds_listAss_iff {l : Lists.Varr} {i : Index} {o : Lists.Outcome} {own : Bool}
    {y : Val} (hset : spec.base ≠ .set) (hl : ∀ x ∈ l.vec, spec.Holds E c.kind x)
    (ho : listAss E c spec l opr v own i = some o) (hy : o.rval = .ok y) :
    (∀ x ∈ o.varr.vec, spec.Holds E c.kind x) ↔ FitsList E c spec l.vec opr v own i := by
  cases i with
  | «at» idx =>
    obtain ⟨e, rfl, -⟩ | ⟨j, _, hj, ⟨⟩, ⟨rfl, x, hx, rfl⟩ | ⟨op, x, rfl, hx, rfl⟩⟩ :=
      Lists.arrayAss_cases ho
    · simp [Lists.fail] at hy
    · exact (forall_mem_set_iff (Lists.numeric_lt hj) hl).trans (holds_prepare_iff hset hx)
    · refine (forall_mem_set_iff (Lists.numeric_lt hj) hl).trans ?_
      constructor
      · intro hv k z hk hz
        obtain rfl : j = k := by simpa [hj] using hk
        obtain rfl : x = z := Except.ok.inj (Option.some.inj (hx.symm.trans hz))
        exact hv
      · exact fun hfits => hfits j x hj hx
  | slice start stop step =>
    have hcases := Lists.sliceAss_cases E c.kind l (start.map .ok) (stop.map .ok) (step.map .ok) opr
      (if own then .own else .val (.ok v))
    rw [listAss] at ho
    obtain ⟨e, he, -⟩ | ⟨j, n, -, flags, new, -, -, -, ha, he⟩ := hcases
    · obtain rfl := Option.some.inj (he.symm.trans ho)
      cases hy
    · rw [he] at ho
      obtain rfl := Option.some.inj (Option.ite_none_left_eq_some.mp ho).2
      have hnew : (∀ x ∈ l.vec.take j ++ new ++ l.vec.drop (j + n), spec.Holds E c.kind x) ↔
          ∀ x ∈ new, spec.Holds E c.kind x := by
        constructor
        · exact fun h x hx => h x (by simp [hx])
        · intro h x hx
          simp only [mem_append] at hx
          rcases hx with (hx | hx) | hx
          · exact hl x (mem_of_mem_take hx)
          · exact h x hx
          · exact hl x (mem_of_mem_drop hx)
      refine hnew.trans ?_
      cases own with
      | true =>
        -- the elements are those of the list
        obtain ⟨-, rfl⟩ := Val.arr.inj (Except.ok.inj ha)
        exact iff_of_true hl (.inl rfl)
      | false =>
        obtain rfl : v = .arr flags new := Except.ok.inj ha
        simp [FitsList]

variable [DecidableEq φ] {flags flags' : ArrFlags} {vec vec' : List Val} {name : Raw}

section

variable (h : Conforms E T c) (hx : (Place.prop t name).get E T c = .ok (spec, .arr flags vec))

include h hx

/-- A list which is read conforms to its specification, and so must the one which is put. -/
theorem conforms_put_iff : spec.base ≠ .set ∧ (∀ x ∈ vec, spec.Holds E c.kind x) ∧
    (Conforms E T ((Place.prop t name).put T c (.arr flags' vec')) ↔
      ∀ x ∈ vec', spec.Holds E c.kind x) := by
  unfold Place.get at hx
  unfold Place.put
  cases hk : c.kind t with
  | object s =>
    simp only [hk] at hx ⊢
    cases ha : (c.props t).lookup name with
    | none => simp [ha] at hx
    | some a =>
      simp only [ha, Except.ok.injEq, Prod.mk.injEq] at hx
      obtain ⟨rfl, rfl⟩ := hx
      refine ⟨by simp [Spec.any], fun _ _ => holds_any, ?_⟩
      rw [conforms_setProp_iff h hk]
      apply iff_of_true _ (fun _ _ => holds_any)
      exact (or_congr Iff.rfl Lists.holds_arr).mp (h.restricted t s hk _ (mem_of_lookup ha))
  | «instance» type =>
    simp only [hk] at hx ⊢
    cases hf : T.byName type name with
    | none => simp [hf] at hx
    | some f =>
      simp only [hf, Except.ok.injEq, Prod.mk.injEq] at hx ⊢
      obtain ⟨rfl, hval⟩ := hx
      rw [← byName_type hf] at hk
      have hv := h.typed f t hk
      rw [hval] at hv
      rw [conforms_setField_iff h hk, holds_arr_iff]
      rcases holds_arr_iff.mp hv with hany | ⟨harr, -⟩
      · exact ⟨by simp [nested_of_any hany, Spec.any], hv.of_arr,
          by simp [hany, nested_of_any hany]⟩
      · exact ⟨((T.field f).nested_of_arr harr).2, hv.of_arr, by simp [harr]⟩

end

theorem conforms_index_iff {x : Place} {i : Index} (h : Conforms E T c)
    (ho : index E T c x i opr r = some (.ok c')) : Conforms E T c' ↔ FitsIndex E T c x opr r i := by
  unfold index at ho
  unfold FitsIndex
  cases hx : x.get E T c with
  | error e => simp [hx] at ho
  | ok sv =>
    obtain ⟨spec, w⟩ := sv
    cases w with
    | thing t =>
      cases i with
      | «at» key =>
        simp only [hx] at ho ⊢
        exact conforms_indexSet_iff h ho
      | slice => simp [hx] at ho
    | arr flags vec =>
      simp only [hx] at ho ⊢
      split_ifs at ho with ht
      · simp at ho
      · cases hl : listAss E c spec ⟨flags, vec⟩ opr (r.get c) (x.isOwn T c r) i with
        | none => simp [hl] at ho
        | some o =>
          cases hy : o.rval with
          | error e => simp [hl, hy, Except.map] at ho
          | ok y =>
            simp only [hl, hy, Except.map, Option.map_some, Option.some.injEq,
              Except.ok.injEq] at ho
            subst ho
            cases x with
            | val w => exact iff_of_true h (by simp)
            | prop t name =>
              obtain ⟨hset, hvec, hput⟩ := conforms_put_iff h hx
              rw [hput, holds_listAss_iff hset hvec hl hy]
              simp
    | _ =>
      simp only [hx] at ho
      simp at ho

end Lists

theorem conforms_toThing_iff [DecidableEq φ] {nargs : ℕ} (h : Conforms E T c)
    (ht : c.kind t = .instance type) (ho : toThing E T c t type nargs = .ok c') :
    Conforms E T c' ↔ Fits E T c (.toThing t type nargs) := by
  rw [Fits, and_iff_right ht]
  unfold toThing at ho
  split_ifs at ho with hn hu
  obtain rfl := Except.ok.inj ho
  have huse : ∀ f, ¬ (T.field f).Uses type := fun f hf => hu (T.uses_inUse f type hf)
  have hkeep : ∀ a i, i ≠ type → c.kind a = .instance i →
      Function.update c.kind t (.object .any) a = .instance i := by
    intro a i hi ha
    have hat : a ≠ t := by
      rintro rfl
      exact hi (by simpa using ha.symm.trans ht)
    rw [Function.update_of_ne hat]
    exact ha
  constructor
  · intro h' a spec ha hb kv hkv heq
    have hat : a ≠ t := by
      rintro rfl
      simp [ht] at ha
    have hv := h'.restricted a spec (by simpa [hat] using ha) kv (by simpa [hat] using hkv)
    simp [Spec.Holds, hb, Base.Holds, heq, Val.tp] at hv
  · intro hfits
    constructor
    · intro f a ha
      have hat : a ≠ t := by
        rintro rfl
        simp at ha
      apply (h.typed f a (by simpa [hat] using ha)).mono
      · intro b i hi hb
        exact hkeep b i (fun heq => huse f (heq ▸ hi)) hb
      · intro b _ hb
        have hbt : b ≠ t := by
          rintro rfl
          simp [ht] at hb
        simpa [hbt] using hb
    · intro a spec ha kv hkv
      by_cases hat : a = t
      · subst hat
        obtain rfl : Spec.any = spec := by simpa using ha
        exact holds_any
      · have ha' : c.kind a = .object spec := by simpa [hat] using ha
        have hkv' : kv ∈ c.props a := by simpa [hat] using hkv
        have hv := h.restricted a spec ha' kv hkv'
        by_cases hb : spec.base = .typeId type
        · rcases hv with hv | hv
          · exact .inl hv
          · right
            rw [hb] at hv ⊢
            obtain ⟨x, hx, hkx⟩ := hv
            have hxt : x ≠ t := fun heq => hfits a spec ha' hb kv hkv' (heq ▸ hx)
            exact ⟨x, hx, by simpa [hxt] using hkx⟩
        · exact holds_mono (fun b i hi hbi => hkeep b i (fun heq => hb (heq ▸ hi)) hbi) hv

section Defined

variable [DecidableEq φ]

theorem updProp_defined {opr : OprToken} {notFound : NotFound}
    (hfits : FitsProp E T c t key (some opr) r) :
    updProp E T c t key opr (r.get c) notFound ≠ none := by
  unfold updProp
  unfold FitsProp at hfits
  cases hk : c.kind t with
  | object spec =>
    simp only [hk] at hfits ⊢
    cases ha : (c.props t).lookup key with
    | none => simp
    | some a =>
      obtain ⟨res, hres, -⟩ := hfits a ha
      simp [oUpdate, hres]
  | «instance» type =>
    simp only [hk] at hfits ⊢
    cases hf : T.byName type key with
    | none => simp
    | some f =>
      obtain ⟨res, hres, -⟩ := hfits f hf
      simp [tUpdate, hres]

theorem index_defined {x : Place} {i : Index} (hfits : FitsIndex E T c x opr r i) :
    index E T c x i opr r ≠ none := by
  unfold index
  unfold FitsIndex at hfits
  split
  · simp
  · rename_i hx
    simp only [hx] at hfits
    unfold indexSet
    split_ifs
    · simp
    · cases opr with
      | some opr => exact updProp_defined hfits
      | none => cases c.kind _ <;> simp
  · rename_i hx
    simp only [hx] at hfits
    split_ifs
    · simp
    · simpa using hfits.1
  · simp

theorem exec_defined {op : Op φ} (hfits : Fits E T c op) : exec E T c op ≠ none := by
  cases op with
  | nameAssign x name opr r =>
    cases x with
    | thing t =>
      cases opr with
      | some opr => exact updProp_defined hfits
      | none => cases hk : c.kind t <;> simp [exec, nameAssign, hk]
    | _ => cases opr <;> simp [exec, nameAssign]
  | index x i opr r => exact index_defined hfits
  | toThing t type nargs => simp [exec, hfits.1]

end Defined

/-- A type with one property `n` with definition `uint`. -/
def counterField : Field where
  type := 0
  name := [110]
  specRaw := [117, 105, 110, 116]
  base := .plain .uint
  nillable := false
  nested := .any
  nested_of_arr := by simp
  nested_any := by simp

def counterTypes : Types Unit := .single (fun _ => counterField) [()] (fun _ => rfl) <| by
  simp [Field.Uses, counterField, Spec.any]

def counters : Collection Unit where
  kind _ := .instance 0
  id t := t + 1
  vals _ _ := .int 0
  props _ := []

theorem counters_conform : Conforms default counterTypes counters := by
  constructor
  · intro f a _
    exact .inr ⟨0, rfl, by decide⟩
  · simp [counters]

end ThingsDB.Typed
