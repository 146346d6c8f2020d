import ThingsDB.Enums.Members

/-!
# Enumerators stay consistent

The list of members and the map of names agree, names are those of one member or method, and the
values of the members are of one type and differ. A call which is rejected changes nothing.
-/

namespace ThingsDB.Enums

open Util Opr Function List

section Values

variable {a b : Obj} {tp : EnumTp}

/-- Two values are not equal, in at least one of the directions in which they can be compared. -/
def Differ (a b : Obj) : Prop := eq a b = some false ∨ eq b a = some false

theorem Differ.symm (h : Differ a b) : Differ b a := h.elim .inr .inl

theorem has_ne_arr (h : tp.has a.val) : a.val.tp ≠ .arr := by
  intro harr
  cases tp <;> simp [EnumTp.has, Val.isStr, harr] at h

theorem has_ne_datetime (h : tp.has a.val) : a.val.tp ≠ .datetime := by
  intro htime
  cases tp <;> simp [EnumTp.has, Val.isStr, htime] at h

/-- Values of the types for members have a result if they are compared. -/
theorem exists_eq (ha : tp.has a.val) (hb : tp.has b.val) : ∃ r, eq a b = some r := by
  cases a with
  | arr addr flags vec => exact absurd rfl (has_ne_arr ha)
  | leaf addr v hv =>
    cases b with
    | arr addr flags vec => exact absurd rfl (has_ne_arr hb)
    | leaf addr' w hw =>
      rw [eq]
      split_ifs
      · exact ⟨true, rfl⟩
      · exact exists_eqLeaf fun h => has_ne_datetime hb h.2

theorem eq_of_not_same {junk : Obj → Obj → Bool} (ha : tp.has a.val)
    (hb : tp.has b.val) (h : same junk a b = false) : eq a b = some false := by
  obtain ⟨r, hr⟩ := exists_eq ha hb
  rw [same, hr, Option.getD_some] at h
  rw [hr, h]

theorem has_ofTp {v : Val} (h : EnumTp.ofTp v.tp = some tp) : tp.has v := by
  cases htp : v.tp <;> rw [htp] at h <;> cases h <;> simp [EnumTp.has, Val.isStr, htp]

end Values

/-- The list of members, the map of names, the methods and the values of an enumerator agree. -/
structure Consistent (e : EnumRec) : Prop where
  idx : ∀ (k : ℕ) m, e.members[k]? = some m → (e.heap m).idx = k
  smap : ∀ s m, e.smap s = some m ↔ m ∈ e.members ∧ (e.heap m).name = s
  disjoint : ∀ m ∈ e.members, ∀ x ∈ e.methods, x.name ≠ (e.heap m).name
  typed : ∀ m ∈ e.members, ∃ tp, e.tp = some tp ∧ tp.has (e.heap m).val.val = true
  differ : ∀ m ∈ e.members, ∀ m' ∈ e.members, m ≠ m' → Differ (e.heap m).val (e.heap m').val
  fresh : ∀ m ∈ e.members, m < e.next

variable {e e' : EnumRec} {m : ℕ} {name : Raw} {v : Obj}

namespace Consistent

theorem create (name : Raw) : Consistent (EnumRec.create name) := by
  refine ⟨?_, ?_, ?_, ?_, ?_, ?_⟩ <;> simp [EnumRec.create]

theorem getElem_idx (h : Consistent e) (hm : m ∈ e.members) :
    e.members[(e.heap m).idx]? = some m := by
  obtain ⟨k, hk⟩ := mem_iff_getElem?.mp hm
  rw [h.idx k m hk]
  exact hk

theorem nodup (h : Consistent e) : e.members.Nodup := by
  rw [nodup_iff_getElem?_ne_getElem?]
  intro i j hij hj heq
  have hget : e.members[j]? = some e.members[j] := getElem?_eq_getElem hj
  have hi := h.idx i _ (heq.trans hget)
  have hj' := h.idx j _ hget
  omega

theorem mem_of_smap (h : Consistent e) (hm : e.smap name = some m) :
    m ∈ e.members ∧ (e.heap m).name = name := (h.smap name m).mp hm

theorem not_mem_of_smap_none (h : Consistent e) (hs : e.smap name = none) (hm : m ∈ e.members) :
    (e.heap m).name ≠ name := by
  intro heq
  have := (h.smap name m).mpr ⟨hm, heq⟩
  rw [hs] at this
  cases this

end Consistent

theorem getMethod_eq_none : e.getMethod name = none ↔ ∀ x ∈ e.methods, x.name ≠ name := by
  simp [EnumRec.getMethod, find?_eq_none]

theorem known_eq_false (h : e.known name = false) :
    e.smap name = none ∧ ∀ x ∈ e.methods, x.name ≠ name := by
  rw [EnumRec.known, Bool.or_eq_false_iff, Option.isSome_eq_false_iff, Option.isSome_eq_false_iff,
    Option.isNone_iff_eq_none, Option.isNone_iff_eq_none, getMethod_eq_none] at h
  exact h

section Members

/-- Members which are put in another order, or of which some are removed. -/
theorem Consistent.reorder (h : Consistent e) (htp : e'.tp = e.tp)
    (hmethods : e'.methods = e.methods) (hnext : e'.next = e.next)
    (hsub : ∀ m ∈ e'.members, m ∈ e.members)
    (hname : ∀ m, (e'.heap m).name = (e.heap m).name) (hval : ∀ m, (e'.heap m).val = (e.heap m).val)
    (hidx : ∀ (k : ℕ) m, e'.members[k]? = some m → (e'.heap m).idx = k)
    (hsmap : ∀ s m, e'.smap s = some m ↔ m ∈ e'.members ∧ (e.heap m).name = s) : Consistent e' := by
  refine ⟨hidx, ?_, ?_, ?_, ?_, ?_⟩
  · intro s m
    rw [hsmap, hname]
  · intro m hm x hx
    rw [hname]
    exact h.disjoint m (hsub m hm) x (hmethods ▸ hx)
  · intro m hm
    rw [htp, hval]
    exact h.typed m (hsub m hm)
  · intro m hm m' hm' hne
    rw [hval, hval]
    exact h.differ m (hsub m hm) m' (hsub m' hm') hne
  · intro m hm
    rw [hnext]
    exact h.fresh m (hsub m hm)

theorem Consistent.addMember (h : Consistent e) (hname : e.smap name = none)
    (hmethods : ∀ x ∈ e.methods, x.name ≠ name) (htyped : ∃ tp, e.tp = some tp ∧ tp.has v.val)
    (hdiffer : ∀ m ∈ e.members, Differ (e.heap m).val v) : Consistent (e.addMember name v).1 := by
  rw [EnumRec.addMember]
  by_cases hfull : e.members.length = 0xffff
  · rw [if_pos hfull]
    exact h
  · rw [if_neg hfull, if_neg (by simp [hname])]
    have hold : ∀ m ∈ e.members, update e.heap e.next ⟨name, v, e.members.length⟩ m =
        e.heap m := by
      intro m hm
      exact update_of_ne (Nat.ne_of_lt (h.fresh m hm)) _ _
    have hself : update e.heap e.next ⟨name, v, e.members.length⟩ e.next =
        ⟨name, v, e.members.length⟩ := update_self _ _ _
    refine ⟨?_, ?_, ?_, ?_, ?_, ?_⟩
    · intro k m hk
      rw [getElem?_append] at hk
      split_ifs at hk with hlt
      · simp only [hold m (mem_of_getElem? hk)]
        exact h.idx k m hk
      · rw [getElem?_singleton] at hk
        split_ifs at hk with hk0
        cases hk
        simp only [hself]
        omega
    · intro s m
      simp only [update_apply, mem_append, mem_singleton]
      by_cases hs : s = name
      · subst hs
        simp only [if_true, Option.some.injEq]
        constructor
        · rintro rfl
          simp
        · rintro ⟨hm | rfl, heq⟩
          · rw [if_neg (Nat.ne_of_lt (h.fresh m hm))] at heq
            exact absurd heq (h.not_mem_of_smap_none hname hm)
          · rfl
      · simp only [if_neg hs, h.smap]
        constructor
        · rintro ⟨hm, heq⟩
          rw [if_neg (Nat.ne_of_lt (h.fresh m hm))]
          exact ⟨.inl hm, heq⟩
        · rintro ⟨hm | rfl, heq⟩
          · rw [if_neg (Nat.ne_of_lt (h.fresh m hm))] at heq
            exact ⟨hm, heq⟩
          · simp only [if_true] at heq
            exact absurd heq.symm hs
    · refine forall_mem_append.mpr ⟨fun m hm => ?_, forall_mem_singleton.mpr ?_⟩
      · simp only [hold m hm]
        exact h.disjoint m hm
      · simp only [hself]
        exact hmethods
    · refine forall_mem_append.mpr ⟨fun m hm => ?_, forall_mem_singleton.mpr ?_⟩
      · simp only [hold m hm]
        exact h.typed m hm
      · simp only [hself]
        exact htyped
    · refine forall_mem_append.mpr ⟨fun m hm => ?_, forall_mem_singleton.mpr ?_⟩ <;>
        refine forall_mem_append.mpr ⟨fun m' hm' => ?_, forall_mem_singleton.mpr ?_⟩
      · simp only [hold m hm, hold m' hm']
        exact h.differ m hm m' hm'
      · simp only [hold m hm, hself]
        exact fun _ => hdiffer m hm
      · simp only [hold m' hm', hself]
        exact fun _ => (hdiffer m' hm').symm
      · exact fun hne => absurd rfl hne
    · refine forall_mem_append.mpr ⟨fun m hm => ?_, forall_mem_singleton.mpr ?_⟩
      · exact Nat.lt_succ_of_lt (h.fresh m hm)
      · exact Nat.lt_succ_self _

section Put

variable {β : Type} (e : EnumRec) (m : ℕ) {f : Member → Member} (g : Member → β) (x : ℕ)

theorem put_eq : g ((e.put m f).heap x) = if x = m then g (f (e.heap m)) else g (e.heap x) := by
  simp only [EnumRec.put, update_apply]
  exact apply_ite g _ _ _

theorem put_same (h : g (f (e.heap m)) = g (e.heap m)) : g ((e.put m f).heap x) = g (e.heap x) := by
  rw [put_eq e m g]
  split_ifs with hx
  · rw [h, hx]
  · rfl

variable (i : ℕ)

theorem name_put_idx : ((e.put m fun y => { y with idx := i }).heap x).name = (e.heap x).name :=
  put_same e m Member.name x rfl

theorem val_put_idx : ((e.put m fun y => { y with idx := i }).heap x).val = (e.heap x).val :=
  put_same e m Member.val x rfl

end Put

theorem Consistent.delMember (h : Consistent e) (hm : m ∈ e.members) :
    Consistent (e.delMember m) := by
  have hidx := h.getElem_idx hm
  have hlt : (e.heap m).idx < e.members.length := (List.getElem?_eq_some_iff.mp hidx).1
  have hperm := vecSwapRemove_perm e.members (e.heap m).idx hlt
  have hmem : ∀ x, x ∈ vecSwapRemove e.members (e.heap m).idx ↔ x ∈ e.members ∧ x ≠ m := by
    intro x
    rw [hperm.mem_iff, mem_eraseIdx_iff_getElem?]
    constructor
    · rintro ⟨k, hk, hget⟩
      refine ⟨mem_of_getElem? hget, ?_⟩
      rintro rfl
      exact hk (h.idx k x hget).symm
    · rintro ⟨hx, hne⟩
      refine ⟨(e.heap x).idx, fun heq => hne ?_, h.getElem_idx hx⟩
      have := h.getElem_idx hx
      rw [heq, hidx] at this
      exact (Option.some.inj this).symm
  have hnodup : (vecSwapRemove e.members (e.heap m).idx).Nodup :=
    hperm.nodup_iff.mpr (h.nodup.eraseIdx _)
  have hsmap : ∀ s x, update e.smap (e.heap m).name none s = some x ↔
      x ∈ vecSwapRemove e.members (e.heap m).idx ∧ (e.heap x).name = s := by
    intro s x
    rw [hmem, update_apply]
    by_cases hs : s = (e.heap m).name
    · subst hs
      rw [if_pos rfl]
      refine ⟨fun hn => (Option.some_ne_none x hn.symm).elim, ?_⟩
      rintro ⟨⟨hx, hne⟩, heq⟩
      have hxm := (h.smap (e.heap m).name x).mpr ⟨hx, heq⟩
      have hmm := (h.smap (e.heap m).name m).mpr ⟨hm, rfl⟩
      exact absurd (Option.some.inj (hxm.symm.trans hmm)) hne
    · rw [if_neg hs, h.smap]
      refine ⟨fun hx => ⟨⟨hx.1, ?_⟩, hx.2⟩, fun hx => ⟨hx.1.1, hx.2⟩⟩
      rintro rfl
      exact hs hx.2.symm
  -- a member which does not move is where it was
  have hstay : ∀ (k : ℕ) x, k ≠ (e.heap m).idx →
      (vecSwapRemove e.members (e.heap m).idx)[k]? = some x → (e.heap x).idx = k := by
    intro k x hne hk
    have hlen := (List.getElem?_eq_some_iff.mp hk).1
    rw [length_vecSwapRemove] at hlen
    rw [getElem?_vecSwapRemove _ _ hlt (by omega), if_neg hne] at hk
    exact h.idx k x hk
  rw [EnumRec.delMember]
  simp only
  cases hswap : (vecSwapRemove e.members (e.heap m).idx)[(e.heap m).idx]? with
  | none =>
    simp only
    refine h.reorder rfl rfl rfl (fun x hx => ((hmem x).mp hx).1) (fun _ => rfl) (fun _ => rfl) ?_
      hsmap
    intro k x hk
    refine hstay k x (fun heq => ?_) hk
    rw [heq] at hk
    rw [hk] at hswap
    cases hswap
  | some swap =>
    simp only
    refine h.reorder rfl rfl rfl (fun x hx => ((hmem x).mp hx).1)
      (fun _ => name_put_idx _ _ _ _) (fun _ => val_put_idx _ _ _ _) ?_ hsmap
    · intro k x hk
      rw [put_eq _ swap Member.idx]
      by_cases hx : x = swap
      · rw [if_pos hx]
        have hlen := (List.getElem?_eq_some_iff.mp hswap).1
        exact (getElem?_inj hlen hnodup).mp (hswap.trans (hx ▸ hk.symm))
      · rw [if_neg hx]
        refine hstay k x (fun heq => hx ?_) hk
        rw [heq] at hk
        exact Option.some.inj (hk.symm.trans hswap)

theorem getElem?_vecSwap {α : Type} {l : List α} {i j : ℕ} (hi : i < l.length) (hj : j < l.length)
    (k : ℕ) : (vecSwap l i j)[k]? = if k = j then l[i]? else if k = i then l[j]? else l[k]? := by
  rw [vecSwap, getElem?_eq_getElem hi, getElem?_eq_getElem hj]
  simp only [getElem?_set, length_set, hi, hj]
  split_ifs <;> first | rfl | omega

theorem Consistent.memberDef (h : Consistent e) (hm : m ∈ e.members) :
    Consistent (e.memberDef m) := by
  rw [EnumRec.memberDef]
  cases hhead : e.members.head? with
  | none => exact h
  | some tmp =>
    have hidx := h.getElem_idx hm
    have hlt : (e.heap m).idx < e.members.length := (List.getElem?_eq_some_iff.mp hidx).1
    have hfirst : e.members[0]? = some tmp := by rwa [← head?_eq_getElem?]
    have hpos : 0 < e.members.length := by omega
    have hget := getElem?_vecSwap hpos hlt
    have hmem : ∀ x, x ∈ vecSwap e.members 0 (e.heap m).idx ↔ x ∈ e.members := by
      intro x
      simp only [mem_iff_getElem?, hget]
      constructor
      · rintro ⟨k, hk⟩
        split_ifs at hk
        · exact ⟨_, hk⟩
        · exact ⟨_, hk⟩
        · exact ⟨_, hk⟩
      · rintro ⟨k, hk⟩
        by_cases hk0 : k = 0
        · exact ⟨(e.heap m).idx, by rw [if_pos rfl, ← hk0, hk]⟩
        · by_cases hkm : k = (e.heap m).idx
          · exact ⟨0, by rw [if_neg (by omega), if_pos rfl, ← hkm, hk]⟩
          · exact ⟨k, by rw [if_neg hkm, if_neg hk0, hk]⟩
    simp only
    refine h.reorder rfl rfl rfl (fun x hx => (hmem x).mp hx) ?_ ?_ ?_ ?_
    · exact fun x => (name_put_idx _ _ _ _).trans (name_put_idx _ _ _ _)
    · exact fun x => (val_put_idx _ _ _ _).trans (val_put_idx _ _ _ _)
    · intro k x hk
      rw [put_eq _ m Member.idx, put_eq _ tmp Member.idx]
      rw [hget] at hk
      split_ifs at hk with hkm hk0
      · obtain rfl : tmp = x := Option.some.inj (hfirst.symm.trans hk)
        rw [if_pos (rfl : tmp = tmp)]
        split_ifs with hx
        · subst hx
          rw [hkm, h.idx 0 tmp hfirst]
        · exact hkm.symm
      · obtain rfl : m = x := Option.some.inj (hidx.symm.trans hk)
        rw [if_pos rfl, hk0]
      · rw [if_neg, if_neg, h.idx k x hk]
        · rintro rfl
          exact hk0 ((h.idx k x hk).symm.trans (h.idx 0 x hfirst))
        · rintro rfl
          exact hkm (h.idx k x hk).symm
    · intro s x
      rw [hmem]
      exact h.smap s x

theorem Consistent.put_val (h : Consistent e) (htyped : ∃ tp, e.tp = some tp ∧ tp.has v.val)
    (hdiffer : ∀ m ∈ e.members, Differ (e.heap m).val v) :
    Consistent (e.put m fun x => { x with val := v }) := by
  have hname := fun x => put_same e m (f := fun x => { x with val := v }) Member.name x rfl
  have hidx := fun x => put_same e m (f := fun x => { x with val := v }) Member.idx x rfl
  have hval := fun x => put_eq e m (f := fun x => { x with val := v }) Member.val x
  refine ⟨fun k x hk => (hidx x).trans (h.idx k x hk), fun s x => ?_, fun x hx y hy => ?_,
    fun x hx => ?_, fun x hx y hy hne => ?_, h.fresh⟩
  · rw [hname]
    exact h.smap s x
  · rw [hname]
    exact h.disjoint x hx y hy
  · rw [hval]
    split_ifs
    · exact htyped
    · exact h.typed x hx
  · rw [hval, hval]
    split_ifs with hxm hym hym
    · exact absurd (hxm.trans hym.symm) hne
    · exact (hdiffer y hy).symm
    · exact hdiffer x hx
    · exact h.differ x hx y hy hne

variable {E : Env} {typeOf : ℕ → Option TypeId} {junk : Obj → Obj → Bool}

/-- A value which is accepted is of the type of the others, and differs from all of them. -/
theorem Consistent.of_checkVal (h : Consistent e) (hcheck : e.checkVal E typeOf junk v = none) :
    (∃ tp, e.tp = some tp ∧ tp.has v.val) ∧ ∀ m ∈ e.members, Differ (e.heap m).val v := by
  rw [EnumRec.checkVal] at hcheck
  cases hby : e.memberByVal junk v with
  | some m => simp [hby] at hcheck
  | none =>
    simp only [hby, EnumRec.checkTp] at hcheck
    split_ifs at hcheck with hany
    obtain ⟨tp, htp, hhas⟩ : ∃ tp, e.tp = some tp ∧ tp.has v.val = true := by
      simpa [Option.any_eq_true] using hany
    refine ⟨⟨tp, htp, hhas⟩, fun m hm => .inl ?_⟩
    obtain ⟨tp', htp', hhas'⟩ := h.typed m hm
    obtain rfl : tp = tp' := Option.some.inj (htp.symm.trans htp')
    have hnot := find?_eq_none.mp hby m hm
    exact eq_of_not_same hhas' hhas (Bool.eq_false_iff.mpr hnot)

/-- Either a call is accepted, or nothing has changed. -/
def Accepted (e : EnumRec) (r : EnumRec × Option Ex) : Prop := r.2 = none ∨ r.1 = e

structure Kept (e : EnumRec) (r : EnumRec × Option Ex) : Prop where
  accepted : Accepted e r
  consistent : Consistent e → Consistent r.1

theorem kept_rejected {ex : Option Ex} : Kept e (e, ex) := ⟨.inr rfl, id⟩

theorem accepted_addMember : Accepted e (e.addMember name v) := by
  rw [EnumRec.addMember]
  split_ifs
  · exact .inr rfl
  · exact .inr rfl
  · exact .inl rfl

theorem kept_memberCreate : Kept e (e.memberCreate E typeOf junk name v) := by
  rw [EnumRec.memberCreate]
  cases hknown : e.known name with
  | true => exact kept_rejected
  | false =>
    obtain ⟨hs, hmethods⟩ := known_eq_false hknown
    rw [if_neg Bool.false_ne_true]
    by_cases hnil : e.members = []
    · rw [if_pos hnil, EnumRec.setEnumTp]
      cases htp : EnumTp.ofTp v.val.tp with
      | none => exact kept_rejected
      | some tp =>
        -- there is room for the first member, and its name is new
        refine ⟨by simp [EnumRec.addMember, Accepted, hnil, hs], fun h => ?_⟩
        have hset : Consistent { e with tp := some tp } := by
          refine ⟨h.idx, h.smap, h.disjoint, fun m hm => ?_, h.differ, h.fresh⟩
          change m ∈ e.members at hm
          rw [hnil] at hm
          cases hm
        refine hset.addMember hs hmethods ⟨tp, rfl, has_ofTp htp⟩ fun m hm => ?_
        change m ∈ e.members at hm
        rw [hnil] at hm
        cases hm
    · rw [if_neg hnil]
      cases hcheck : e.checkVal E typeOf junk v with
      | some ex => exact kept_rejected
      | none =>
        refine ⟨accepted_addMember, fun h => ?_⟩
        obtain ⟨htyped, hdiffer⟩ := h.of_checkVal hcheck
        exact h.addMember hs hmethods htyped hdiffer

theorem kept_setValue : Kept e (e.setValue E typeOf junk m v) := by
  rw [EnumRec.setValue]
  cases hcheck : e.checkVal E typeOf junk v with
  | some ex => exact kept_rejected
  | none =>
    refine ⟨.inl rfl, fun h => ?_⟩
    obtain ⟨htyped, hdiffer⟩ := h.of_checkVal hcheck
    exact h.put_val htyped hdiffer

/-- A name which is not in use is given to a member: the map gets it, and loses the old one. -/
theorem Consistent.put_name (h : Consistent e) (hm : m ∈ e.members) (hs : e.smap name = none)
    (hmethods : ∀ x ∈ e.methods, x.name ≠ name) :
    Consistent { e.put m fun x => { x with name := name } with
      smap := update (update e.smap name (some m)) (e.heap m).name none } := by
  have hheap : ∀ x, (e.put m fun x => { x with name := name }).heap x =
      if x = m then { e.heap m with name := name } else e.heap x := by
    intro x
    simp only [EnumRec.put, update_apply]
  have hold : e.smap (e.heap m).name = some m := (h.smap _ m).mpr ⟨hm, rfl⟩
  have hne : name ≠ (e.heap m).name := by
    rintro heq
    rw [← heq, hs] at hold
    cases hold
  refine ⟨fun k x hk => ?_, fun s x => ?_, fun x hx y hy => ?_, fun x hx => ?_,
    fun x hx y hy hxy => ?_, h.fresh⟩
  · have hidx := h.idx k x hk
    simp only [hheap]
    split_ifs with hxm
    · rwa [hxm] at hidx
    · exact hidx
  · change _ ↔ x ∈ e.members ∧ _
    simp only [hheap, update_apply]
    by_cases hxm : x = m
    · subst hxm
      by_cases hsn : s = name
      · subst hsn
        simp [hne, hm]
      · rw [if_pos rfl]
        have hfalse : ¬ (if s = (e.heap x).name then none else if s = name then some x
            else e.smap s) = some x := by
          rw [if_neg hsn]
          split_ifs with hso
          · exact fun hn => by cases hn
          · exact fun hx => hso (h.mem_of_smap hx).2.symm
        exact ⟨fun hx => absurd hx hfalse, fun hx => absurd hx.2.symm hsn⟩
    · rw [if_neg hxm]
      by_cases hso : s = (e.heap m).name
      · rw [if_pos hso]
        refine ⟨fun hn => (Option.some_ne_none x hn.symm).elim, fun hx => absurd ?_ hxm⟩
        have := (h.smap _ x).mpr ⟨hx.1, hx.2.trans hso⟩
        exact Option.some.inj (this.symm.trans hold)
      · rw [if_neg hso]
        by_cases hsn : s = name
        · rw [if_pos hsn]
          refine ⟨fun hx => absurd (Option.some.inj hx).symm hxm, fun hx => ?_⟩
          exact absurd (hx.2.trans hsn) (h.not_mem_of_smap_none hs hx.1)
        · rw [if_neg hsn]
          exact h.smap s x
  · simp only [hheap]
    split_ifs
    · exact hmethods y hy
    · exact h.disjoint x hx y hy
  · have htyped := h.typed x hx
    simp only [hheap]
    split_ifs with hxm
    · rwa [hxm] at htyped
    · exact htyped
  · have hdiffer := h.differ x hx y hy hxy
    simp only [hheap]
    split_ifs with hxm hym hym
    · exact absurd (hxm.trans hym.symm) hxy
    · rwa [hxm] at hdiffer
    · rwa [hym] at hdiffer
    · exact hdiffer

theorem kept_setName {old : Raw} (hm : e.smap old = some m) : Kept e (e.setName E m name) := by
  rw [EnumRec.setName]
  split_ifs with hvalid hmethod hknown
  · exact kept_rejected
  · exact kept_rejected
  · exact kept_rejected
  · have hs : e.smap name = none := Option.not_isSome_iff_eq_none.mp hknown
    have hmethods := getMethod_eq_none.mp (Option.not_isSome_iff_eq_none.mp hmethod)
    exact ⟨.inl rfl, fun h => h.put_name (h.mem_of_smap hm).1 hs hmethods⟩

end Members

section Methods

variable {E : Env} {closure : Raw}

theorem Consistent.withMethods (h : Consistent e) {methods : List Method}
    (hmethods : ∀ x ∈ methods, x ∈ e.methods ∨ (e.smap x.name = none) ∨
      ∃ y ∈ e.methods, y.name = x.name) : Consistent { e with methods := methods } := by
  refine ⟨h.idx, h.smap, fun m hm x hx => ?_, h.typed, h.differ, h.fresh⟩
  rcases hmethods x hx with hx | hs | ⟨y, hy, heq⟩
  · exact h.disjoint m hm x hx
  · exact (h.not_mem_of_smap_none hs hm).symm
  · exact heq ▸ h.disjoint m hm y hy

theorem kept_addMethod : Kept e (e.addMethod E name closure) := by
  rw [EnumRec.addMethod]
  cases hknown : e.known name with
  | true => exact kept_rejected
  | false =>
    refine ⟨.inl rfl, fun h => h.withMethods fun x hx => ?_⟩
    rcases mem_append.mp hx with hx | hx
    · exact .inl hx
    · rw [mem_singleton.mp hx]
      exact .inr (.inl (known_eq_false hknown).1)

theorem Consistent.removeMethod (h : Consistent e) : Consistent (e.removeMethod name) := by
  rw [EnumRec.removeMethod]
  cases e.methods.findIdx? fun x => x.name = name with
  | none => exact h
  | some i => exact h.withMethods fun x hx => .inl (mem_of_mem_vecSwapRemove hx)

theorem mem_modify {α : Type} {l : List α} {i : ℕ} {f : α → α} {x : α} (h : x ∈ l.modify i f) :
    x ∈ l ∨ ∃ y ∈ l, f y = x := by
  obtain ⟨k, hk⟩ := mem_iff_getElem?.mp h
  rw [getElem?_modify] at hk
  obtain ⟨y, hy, hx⟩ := Option.map_eq_some_iff.mp hk
  split_ifs at hx
  · exact .inr ⟨y, mem_of_getElem? hy, hx⟩
  · exact .inl (hx ▸ mem_of_getElem? hy)

theorem Consistent.putMethod (h : Consistent e) {f : Method → Method}
    (hf : ∀ x, (f x).name = x.name ∨ e.smap (f x).name = none) :
    Consistent (e.putMethod name f) := by
  rw [EnumRec.putMethod]
  cases e.methods.findIdx? fun x => x.name = name with
  | none => exact h
  | some i =>
    refine h.withMethods fun x hx => ?_
    rcases mem_modify hx with hx | ⟨y, hy, rfl⟩
    · exact .inl hx
    · rcases hf y with heq | hs
      · exact .inr (.inr ⟨y, hy, heq.symm⟩)
      · exact .inr (.inl hs)

theorem kept_methodSetName {old : Raw} : Kept e (e.methodSetName E old name) := by
  rw [EnumRec.methodSetName]
  split_ifs with hvalid hknown
  · exact kept_rejected
  · exact kept_rejected
  · have hfree := (known_eq_false (Bool.not_eq_true _ ▸ hknown)).1
    exact ⟨.inl rfl, fun h => h.putMethod fun x => .inr hfree⟩

end Methods

variable {s : Coll} {tp : EnumTp}

section Calls

variable {E : Env} {typeOf : ℕ → Option TypeId} {junk : Obj → Obj → Bool}
  {closureErr : Raw → Option Ex} {reserved hasType : Raw → Bool}

theorem kept_modEnum (mod : Mod) : Kept e (e.modEnum E typeOf junk closureErr name mod) := by
  cases mod with
  | other rmod => exact kept_rejected
  | add v =>
    rw [EnumRec.modEnum, EnumRec.modAdd]
    split
    · rename_i text _
      cases closureErr text with
      | some ex => exact kept_rejected
      | none => exact kept_addMethod
    · exact kept_memberCreate
  | defMember =>
    rw [EnumRec.modEnum, EnumRec.modDef]
    cases hs : e.smap name with
    | none => exact kept_rejected
    | some m =>
      simp only
      split_ifs
      · exact kept_rejected
      · exact ⟨.inl rfl, fun h => h.memberDef (h.mem_of_smap hs).1⟩
  | del inUse =>
    rw [EnumRec.modEnum, EnumRec.modDel]
    cases hs : e.smap name with
    | none =>
      simp only
      split_ifs
      · exact ⟨.inl rfl, fun h => h.removeMethod⟩
      · exact kept_rejected
    | some m =>
      simp only
      split_ifs
      · exact kept_rejected
      · exact kept_rejected
      · exact ⟨.inl rfl, fun h => h.delMember (h.mem_of_smap hs).1⟩
  | mod v =>
    rw [EnumRec.modEnum, EnumRec.modMod]
    cases hs : e.smap name with
    | some m =>
      simp only [EnumRec.modMember]
      split_ifs
      · exact kept_rejected
      · exact kept_rejected
      · exact kept_setValue
    | none =>
      simp only [EnumRec.modMethod]
      split_ifs
      · split
        · rename_i text _
          cases closureErr text with
          | some ex => exact kept_rejected
          | none => exact ⟨.inl rfl, fun h => h.putMethod fun x => .inl rfl⟩
        · exact kept_rejected
      · exact kept_rejected
  | ren v =>
    rw [EnumRec.modEnum, EnumRec.modRen]
    split_ifs
    · exact kept_rejected
    · exact kept_rejected
    · exact kept_rejected
    · cases hs : e.smap name with
      | some m => exact kept_setName hs
      | none => exact kept_methodSetName

theorem Consistent.initItem (h : Consistent e) :
    Consistent (e.initItem E typeOf junk name v).1 := by
  rw [EnumRec.initItem]
  split
  · exact kept_addMethod.consistent h
  · exact kept_memberCreate.consistent h

theorem Consistent.initItems (h : Consistent e) (items : List Item) :
    Consistent (e.initItems E typeOf junk items).1 := by
  induction items generalizing e with
  | nil => exact h
  | cons item items ih =>
    rw [EnumRec.initItems]
    split_ifs
    · exact h
    · have hitem : Consistent (e.initItem E typeOf junk item.key.data item.val).1 := h.initItem
      split
      · rename_i e' heq
        rw [heq] at hitem
        exact ih hitem
      · rename_i e' ex heq
        rw [heq] at hitem
        exact hitem

def Coll.Consistent (s : Coll) : Prop := ∀ name e, s.byName name = some e → Enums.Consistent e

theorem Coll.Consistent.call (h : s.Consistent) (c : Call) :
    (call E typeOf junk closureErr reserved hasType s c).1.Consistent := by
  cases c with
  | setEnum name items =>
    rw [Enums.call, setEnum]
    split
    · exact h
    · have hinit : Enums.Consistent
          ((EnumRec.create name).initFromThing E typeOf junk items).1 := by
        rw [EnumRec.initFromThing]
        split_ifs
        · exact Enums.Consistent.create name
        · exact (Enums.Consistent.create name).initItems items
      split
      · rename_i e heq
        rw [heq] at hinit
        intro name' e' he'
        simp only [update_apply] at he'
        split_ifs at he'
        · cases he'
          exact hinit
        · exact h name' e' he'
      · exact h
  | modEnum enum name mod =>
    rw [Enums.call, modEnum]
    split
    · exact h
    · rename_i e he
      split_ifs
      · exact h
      · exact h
      · intro name' e' he'
        simp only [update_apply] at he'
        split_ifs at he'
        · cases he'
          exact (kept_modEnum mod).consistent (h enum e he)
        · exact h name' e' he'

theorem call_rejected (c : Call)
    (h : (call E typeOf junk closureErr reserved hasType s c).2 ≠ none) :
    (call E typeOf junk closureErr reserved hasType s c).1 = s := by
  cases c with
  | setEnum name items =>
    rw [call, setEnum] at h ⊢
    split at h
    · rfl
    · split at h
      · exact absurd rfl h
      · rfl
  | modEnum enum name mod =>
    rw [call, modEnum] at h ⊢
    cases he : s.byName enum with
    | none => rfl
    | some e =>
      simp only [he] at h ⊢
      split_ifs at h ⊢
      · rfl
      · rfl
      · rcases (kept_modEnum (e := e) mod).accepted with hok | hsame
        · exact absurd hok h
        · rw [hsame, ← he, update_eq_self]

theorem Coll.Consistent.calls (h : s.Consistent) (cs : List Call) :
    (calls E typeOf junk closureErr reserved hasType s cs).Consistent := by
  induction cs generalizing s with
  | nil => exact h
  | cons c cs ih => exact ih (h.call c)

theorem not_reaches {a b : Obj} (ha : tp.has a.val) (hb : tp.has b.val) : ¬ Reaches a b := by
  intro hr
  cases hr with
  | leaf addr str datetime => exact has_ne_datetime hb datetime
  | arr => exact has_ne_arr ha rfl

theorem noFloat_of_has {v : Val} (h : tp.has v) (hne : tp ≠ .float) : noFloat v := by
  cases v <;> first
    | rfl
    | (cases tp <;> first | exact absurd rfl hne | simp [EnumTp.has, Val.isStr, Val.tp] at h)

/-- The values of members are not equal in either direction. -/
theorem Consistent.eq_false (h : Consistent e) (hfloat : e.tp = some .float → FloatSymm) {m' : ℕ}
    (hm : m ∈ e.members) (hm' : m' ∈ e.members) (hne : m ≠ m') :
    eq (e.heap m).val (e.heap m').val = some false := by
  obtain ⟨tp, htp, hhas⟩ := h.typed m hm
  obtain ⟨tp', htp', hhas'⟩ := h.typed m' hm'
  obtain rfl : tp = tp' := Option.some.inj (htp.symm.trans htp')
  have hf : FloatSymm ∨ noFloat (e.heap m).val.val ∧ noFloat (e.heap m').val.val := by
    by_cases heq : tp = .float
    · exact .inl (hfloat (heq ▸ htp))
    · exact .inr ⟨noFloat_of_has hhas heq, noFloat_of_has hhas' heq⟩
  obtain ⟨r, hr, hr'⟩ := eq_swap hf (not_reaches hhas hhas') (not_reaches hhas' hhas)
  rcases h.differ m hm m' hm' hne with hfalse | hfalse
  · exact hfalse
  · rw [hr, ← hr', hfalse]

/-- After any calls all enumerators are consistent, the values of their members differ in both
directions, and a call which is rejected changes nothing. -/
theorem enums_consistent (cs : List Call) :
    let s := calls E typeOf junk closureErr reserved hasType ⟨fun _ => none, 0⟩ cs
    (∀ enum e, s.byName enum = some e → Consistent e ∧
      ((e.tp = some .float → FloatSymm) → ∀ m ∈ e.members, ∀ m' ∈ e.members, m ≠ m' →
        eq (e.heap m).val (e.heap m').val = some false)) ∧
    ∀ c, (call E typeOf junk closureErr reserved hasType s c).2 ≠ none →
      (call E typeOf junk closureErr reserved hasType s c).1 = s := by
  intro s
  have hs : s.Consistent := Coll.Consistent.calls (fun _ _ he => by cases he) cs
  refine ⟨fun enum e he => ⟨hs enum e he, fun hfloat m hm m' hm' hne => ?_⟩, fun c => ?_⟩
  · exact (hs enum e he).eq_false hfloat hm hm' hne
  · exact call_rejected c

end Calls

end ThingsDB.Enums
