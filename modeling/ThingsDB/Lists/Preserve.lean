import ThingsDB.Lists.Unchecked

/-!
# What the operations keep of the elements

A property of the elements, which may depend on the flags of their list, and one of the
results. An operation keeps them if it does so for each value it puts in the list.
-/

namespace ThingsDB.Lists

open Util List

/-- At least these flags for things and rooms. -/
def FlagsLe (flags flags' : ArrFlags) : Prop :=
  (flags.mht = true → flags'.mht = true) ∧ (flags.mhr = true → flags'.mhr = true)

theorem FlagsLe.refl (flags : ArrFlags) : FlagsLe flags flags := ⟨id, id⟩

theorem FlagsLe.trans {flags₁ flags₂ flags₃ : ArrFlags} (h : FlagsLe flags₁ flags₂)
    (h' : FlagsLe flags₂ flags₃) : FlagsLe flags₁ flags₃ :=
  ⟨fun hm => h'.1 (h.1 hm), fun hm => h'.2 (h.2 hm)⟩

def Varr.toVal (l : Varr) : Val := .arr l.flags l.vec

def Rhs.toList : Rhs → List Arg
  | .own => []
  | .val a => [a]

def Op.args : Op → List Arg
  | .push args | .extend args | .unshift args | .pop args | .shift args | .splice args => args
  | .arrayAss idx _ val => [idx, val]
  | .sliceAss start stop step _ rhs => start.toList ++ stop.toList ++ step.toList ++ rhs.toList
  | .remove _ limit => limit.toList
  | .fill args | .clear args => args

/-- The right side of an assignment is the list or one of its arguments. -/
theorem Rhs.forall_arg {Q : Val → Prop} {l : Varr} (rhs : Rhs) (hl : Q l.toVal)
    (h : ∀ v, .ok v ∈ rhs.toList → Q v) {v : Val} (ha : rhs.arg l = .ok v) : Q v := by
  cases rhs with
  | own => exact Except.ok.inj ha ▸ hl
  | val a => exact h v (ha ▸ mem_cons_self)

mutual

/-- The value, and what is in it at any depth. -/
def parts : Val → List Val
  | .arr flags vec => .arr flags vec :: partsAll vec
  | v => [v]

def partsAll : List Val → List Val
  | [] => []
  | v :: vec => parts v ++ partsAll vec

end

mutual

theorem forall_parts {Q : Val → Prop} (hQ : ∀ flags vec, Q (.arr flags vec) → ∀ v ∈ vec, Q v)
    (v : Val) (h : Q v) : ∀ w ∈ parts v, Q w := by
  cases v with
  | arr flags vec => exact forall_mem_cons.mpr ⟨h, forall_partsAll hQ vec (hQ flags vec h)⟩
  | _ => exact forall_mem_singleton.mpr h

theorem forall_partsAll {Q : Val → Prop} (hQ : ∀ flags vec, Q (.arr flags vec) → ∀ v ∈ vec, Q v)
    (vec : List Val) (h : ∀ v ∈ vec, Q v) : ∀ w ∈ partsAll vec, Q w := by
  cases vec with
  | nil => exact fun _ hw => absurd hw not_mem_nil
  | cons v vec =>
    obtain ⟨hv, hvec⟩ := forall_mem_cons.mp h
    exact forall_mem_append.mpr ⟨forall_parts hQ v hv, forall_partsAll hQ vec hvec⟩

end

/-- A property of the elements of a list with the flags, and one of values. -/
structure Elements (P : ArrFlags → Val → Prop) (R : Val → Prop) : Prop where
  mono : ∀ {flags flags' v}, FlagsLe flags flags' → P flags v → P flags' v
  nil : ∀ flags, P flags .nil
  plain : ∀ {v : Val}, v.tp ≠ .arr → R v
  elem : ∀ {flags v}, P flags v → R v
  list : ∀ {flags vec}, (∀ v ∈ vec, P flags v) → R (.arr flags vec)

section Defs

variable (P : ArrFlags → Val → Prop) (R : Val → Prop) (E : Env) (kind : ℕ → Kind) (spec : Spec)

def Varr.All (l : Varr) : Prop := ∀ v ∈ l.vec, P l.flags v

/-- What `ti_val_varr_prepare` makes of the value has the property. -/
def Puts (v : Val) : Prop :=
  ∀ flags r, prepare E kind spec flags v = .ok r → FlagsLe flags r.1 ∧ P r.1 r.2

/-- The values which are put in the list have the property, and so has the list with the
elements which `splice` removes. -/
def OpFits (l : Varr) : Op → Prop
  | .push args | .unshift args | .fill args => ∀ v, .ok v ∈ args → Puts P E kind spec v
  | .extend args => ∀ flags vec, args = [.ok (.arr flags vec)] → ∀ v ∈ vec, Puts P E kind spec v
  | .splice args => ∀ i c rest, args = .ok (.int i) :: .ok (.int c) :: rest →
      (∀ v, .ok v ∈ rest → Puts P E kind spec v) ∧
        ∀ i' c', spliceArgs l.vec.length i.toInt c.toInt = some (i', c') →
          R (.arr ⟨false, false, false⟩ ((l.vec.drop i').take c'))
  | .arrayAss idx (some opr) val => ∀ i v x, numeric E kind idx l.vec.length = .ok i →
      val = .ok v → Opr.aToB E (fun t => (kind t).type?) (fun _ _ => none)
        (l.vec.getD i .nil) v opr = some (.ok x) → P l.flags x
  | .arrayAss _ none val => ∀ v, val = .ok v → Puts P E kind spec v
  | .sliceAss _ _ _ _ rhs =>
    ∀ flags vec, rhs.arg l = .ok (.arr flags vec) → ∀ v ∈ vec, P l.flags v
  | _ => True

/-- The list and the result have the property, and a list stays a list. -/
structure Outcome.Keeps (l : Varr) (o : Outcome) : Prop where
  all : o.varr.All P
  rval : ∀ v, o.rval = .ok v → R v
  tuple : o.varr.flags.tuple = l.flags.tuple

/-- A list with more elements: the flags only grow, and what was not in `vec` has the
property. -/
structure Grows (l l' : Varr) : Prop where
  flags : FlagsLe l.flags l'.flags
  tuple : l'.flags.tuple = l.flags.tuple
  vec : ∀ v ∈ l'.vec, v ∈ l.vec ∨ P l'.flags v

end Defs

variable {P : ArrFlags → Val → Prop} {R : Val → Prop} {E : Env} {kind : ℕ → Kind} {spec : Spec}
variable {l l' : Varr} {v : Val} {args : List Arg} {o : Outcome}

theorem tuple_toArr (flags : ArrFlags) (v : Val) : (toArr flags v).1.tuple = flags.tuple := by
  cases v <;> rfl

variable {vec : List Val} {flags : ArrFlags} {opr : Option OprToken} {r : ArrFlags × Val}

theorem tuple_prepare (h : prepare E kind spec flags v = .ok r) : r.1.tuple = flags.tuple := by
  rcases prepare_cases h with ⟨-, rfl⟩ | ⟨-, -, rfl⟩
  · exact tuple_toArr flags v
  · rfl

theorem Grows.refl (l : Varr) : Grows P l l := ⟨FlagsLe.refl _, rfl, fun _ hv => Or.inl hv⟩

section Elements

variable (hP : Elements P R)

include hP

theorem Grows.all (h : Grows P l l') (hl : l.All P) : l'.All P := by
  intro v hv
  rcases h.vec v hv with hmem | hcov
  · exact hP.mono h.flags (hl v hmem)
  · exact hcov

/-- One more element, and then the rest of a loop. -/
theorem Grows.step (hputs : Puts P E kind spec v) (hprep : prepare E kind spec l.flags v = .ok r)
    (hvec : ∀ x ∈ vec, x ∈ l.vec ∨ x = r.2) (h : Grows P ⟨r.1, vec⟩ l') : Grows P l l' := by
  obtain ⟨hle, hr⟩ := hputs l.flags r hprep
  refine ⟨hle.trans h.flags, h.tuple.trans (tuple_prepare hprep), ?_⟩
  intro x hx
  rcases h.vec x hx with hmem | hx
  · rcases hvec x hmem with hmem | rfl
    · exact Or.inl hmem
    · exact Or.inr (hP.mono h.flags hr)
  · exact Or.inr hx

theorem grows_appendLoop (args : List Arg) : ∀ l : Varr,
    (∀ v, .ok v ∈ args → Puts P E kind spec v) →
      Grows P l (appendLoop E kind spec args l).2 := by
  induction args with
  | nil => exact fun l _ => Grows.refl l
  | cons a args ih =>
    intro l hargs
    cases a with
    | error e => exact Grows.refl l
    | ok v =>
      cases hprep : prepare E kind spec l.flags v with
      | error e =>
        simp only [appendLoop, varrAppend, hprep, Except.map]
        exact Grows.refl l
      | ok r =>
        simp only [appendLoop, varrAppend, hprep, Except.map]
        refine Grows.step hP (hargs v mem_cons_self) hprep ?_
          (ih ⟨r.1, l.vec ++ [r.2]⟩ fun w hw => hargs w (mem_cons_of_mem _ hw))
        intro x hx
        rcases mem_append.mp hx with hmem | hmem
        · exact Or.inl hmem
        · exact Or.inr (mem_singleton.mp hmem)

theorem grows_insertLoop (hargs : ∀ v, .ok v ∈ args → Puts P E kind spec v) :
    Grows P l (insertLoop E kind spec args 0 l).2 := by
  obtain ⟨hflags, htuple, hvec⟩ := grows_appendLoop hP args { l with vec := [] } hargs
  rw [insertLoop_zero]
  refine ⟨hflags, htuple, fun v hv => ?_⟩
  rcases mem_append.mp hv with hnew | hold
  · exact Or.inr ((hvec v hnew).resolve_left not_mem_nil)
  · exact Or.inl hold

omit hP in
theorem keeps_fail (hl : l.All P) (e : Ex) : (fail l e).Keeps P R l :=
  ⟨hl, fun _ h => absurd h (by simp [fail]), rfl⟩

/-- The end of a call which puts its arguments in the list, or takes them out again. -/
theorem keeps_looped (hl : l.All P) (looped : Option Ex × Varr) {back : Varr → List Val}
    (hback : ∀ l', ∀ v ∈ back l', v ∈ l'.vec) {task : Varr → Option Task} :
    Grows P l looped.2 → Outcome.Keeps P R l (match looped with
      | (some e, l') => ⟨{ l' with vec := back l' }, .error e, none⟩
      | (none, l') => ⟨l', .ok (lenVal l'.vec), task l'⟩) := by
  intro hgrow
  have hall := hgrow.all hP hl
  rcases looped with ⟨_ | e, l'⟩
  · exact ⟨hall, fun _ hw => Except.ok.inj hw ▸ hP.plain (by simp [lenVal, Val.tp]), hgrow.tuple⟩
  · exact ⟨fun v hv => hall v (hback l' v hv), fun _ h => absurd h (by simp), hgrow.tuple⟩

theorem keeps_push (hl : l.All P) (hargs : ∀ v, .ok v ∈ args → Puts P E kind spec v) :
    (push E kind spec l args).Keeps P R l := by
  unfold push
  split
  · exact keeps_fail hl _
  · exact keeps_looped hP hl _ (fun _ _ => mem_of_mem_take) (grows_appendLoop hP args l hargs)

theorem keeps_extend (hl : l.All P) (hfit : OpFits P R E kind spec l (.extend args)) :
    (extend E kind spec l args).Keeps P R l := by
  unfold extend
  split
  · rename_i flags source
    have hgrow := grows_appendLoop hP (source.map Except.ok) l (by
      intro v hv
      obtain ⟨w, hw, hwv⟩ := mem_map.mp hv
      exact Except.ok.inj hwv ▸ hfit flags source rfl w hw)
    exact keeps_looped hP hl _ (fun _ _ => mem_of_mem_take) hgrow
  all_goals exact keeps_fail hl _

theorem keeps_unshift (hl : l.All P) (hargs : ∀ v, .ok v ∈ args → Puts P E kind spec v) :
    (unshift E kind spec l args).Keeps P R l := by
  unfold unshift
  split
  · exact keeps_fail hl _
  · exact keeps_looped hP hl _ (fun _ _ => mem_of_mem_drop) (grows_insertLoop hP hargs)

theorem keeps_pop (hl : l.All P) : (pop l args).Keeps P R l := by
  unfold pop
  split
  · split
    · exact keeps_fail hl _
    · rename_i v hlast
      refine ⟨fun w hw => hl w (dropLast_subset _ hw), fun w hw => ?_, rfl⟩
      exact Except.ok.inj hw ▸ hP.elem (hl v (mem_of_getLast? hlast))
  · exact keeps_fail hl _

theorem keeps_shift (hl : l.All P) : (shift l args).Keeps P R l := by
  unfold shift
  split
  · split
    · exact keeps_fail hl _
    · rename_i v vec hvec
      refine ⟨fun w hw => hl w (hvec ▸ mem_cons_of_mem v hw), fun w hw => ?_, rfl⟩
      exact Except.ok.inj hw ▸ hP.elem (hl v (hvec ▸ mem_cons_self))
  · exact keeps_fail hl _

omit hP in
theorem all_slots {data : Slots Val} (hdata : ∀ p, P flags (data p)) (hvec : ∀ v ∈ vec, P flags v)
    (i n : ℕ) : Varr.All P ⟨flags, (data.write i vec).read n⟩ :=
  Slots.forall_mem_read (Slots.forall_write hdata hvec i) n

/-- The slots hold elements of the list before, or ones which were appended. -/
theorem keeps_spliceFrom {i c : ℕ} (hl : l.All P) (hargs : ∀ v, .ok v ∈ args → Puts P E kind spec v)
    (hdel : R (.arr ⟨false, false, false⟩ ((l.vec.drop i).take c))) :
    (spliceFrom E kind spec l i c args).Keeps P R l := by
  have hgrow := grows_appendLoop hP args { l with vec := l.vec.take i } hargs
  unfold spliceFrom
  cases ha : appendLoop E kind spec args { l with vec := l.vec.take i } with
  | mk err l' =>
    rw [ha] at hgrow
    have hall : ∀ v ∈ l.vec, P l'.flags v := fun v hv => hP.mono hgrow.flags (hl v hv)
    have hnew : ∀ v ∈ l'.vec.drop i, P l'.flags v := by
      intro v hv
      rcases hgrow.vec v (mem_of_mem_drop hv) with hmem | hcov
      · exact hall v (mem_of_mem_take hmem)
      · exact hcov
    have hdata : ∀ p, P l'.flags ((Slots.ofList l.vec).memmove (i + args.length) (i + c)
        (l.vec.length - i - c) p) :=
      Slots.forall_memmove (Slots.forall_ofList hall (hP.nil _)) _ _ _
    cases err with
    | some e =>
      refine ⟨all_slots ?_ ?_ _ _, fun _ h => absurd h (by simp), hgrow.tuple⟩
      · exact Slots.forall_memmove (Slots.forall_write hdata hnew i) _ _ _
      · exact fun v hv => hall v (mem_of_mem_drop (mem_of_mem_take hv))
    | none => exact ⟨all_slots hdata hnew _ _, fun v hv => Except.ok.inj hv ▸ hdel, hgrow.tuple⟩

theorem keeps_splice (hl : l.All P) (hfit : OpFits P R E kind spec l (.splice args))
    (h : splice E kind spec l args = some o) : o.Keeps P R l := by
  obtain ⟨e, rfl, -⟩ | ⟨i, c, rest, i', c', hargs, hic, rfl⟩ := splice_cases h
  · exact keeps_fail hl e
  · obtain ⟨hrest, hdel⟩ := hfit i c rest hargs
    exact keeps_spliceFrom hP hl hrest (hdel i' c' hic)

theorem all_set {x : Val} (hl : l.All P) (hle : FlagsLe l.flags flags)
    (hx : P flags x) (i : ℕ) : Varr.All P ⟨flags, l.vec.set i x⟩ := by
  intro v hv
  rcases mem_or_eq_of_mem_set hv with hmem | rfl
  · exact hP.mono hle (hl v hmem)
  · exact hx

theorem keeps_arrayAss {idx val : Arg} (hl : l.All P)
    (hfit : OpFits P R E kind spec l (.arrayAss idx opr val))
    (h : arrayAss E kind spec l idx opr val = some o) : o.Keeps P R l := by
  obtain ⟨e, rfl, -⟩ | ⟨i, v, hi, hv, ⟨rfl, r, hp, rfl⟩ | ⟨op, x, rfl, hx, rfl⟩⟩ := arrayAss_cases h
  · exact keeps_fail hl e
  · obtain ⟨hle, hr⟩ := hfit v hv l.flags r hp
    exact ⟨all_set hP hl hle hr i, fun w hw => Except.ok.inj hw ▸ hP.elem hr, tuple_prepare hp⟩
  · have hr := hfit i v x hi hv hx
    exact ⟨all_set hP hl (FlagsLe.refl _) hr i, fun w hw => Except.ok.inj hw ▸ hP.elem hr, rfl⟩

theorem keeps_sliceAss {start stop step : Option Arg} {rhs : Rhs} (hl : l.All P)
    (hfit : OpFits P R E kind spec l (.sliceAss start stop step opr rhs))
    (h : sliceAss E kind l start stop step opr rhs = some o) : o.Keeps P R l := by
  obtain ⟨e, ho, -⟩ | ⟨i, c, -, flags, vec, -, -, -, ha, ho⟩ :=
    sliceAss_cases E kind l start stop step opr rhs
  · exact Option.some.inj (ho.symm.trans h) ▸ keeps_fail hl e
  · rw [ho] at h
    obtain ⟨-, h⟩ := Option.ite_none_left_eq_some.mp h
    obtain rfl := Option.some.inj h
    refine ⟨fun v hv => ?_, fun w hw => Except.ok.inj hw ▸ hP.plain (by simp [Val.tp]), rfl⟩
    rcases mem_append.mp hv with hv | hv
    · rcases mem_append.mp hv with hv | hv
      · exact hl v (mem_of_mem_take hv)
      · exact hfit flags vec ha v hv
    · exact hl v (mem_of_mem_drop hv)

omit hP in
theorem mem_removeIdxs {idxs : List ℕ} (h : v ∈ removeIdxs vec idxs) : v ∈ vec := by
  induction idxs generalizing vec with
  | nil => exact h
  | cons i idxs ih => exact mem_of_mem_eraseIdx (ih h)

/-- The list with the removed elements has both flags, unless it is empty. -/
theorem keeps_remove {closure : Val → ℕ → Except Ex Bool} {limit : Option Arg} (hl : l.All P) :
    (remove E kind l closure limit).Keeps P R l := by
  unfold remove
  split
  · exact keeps_fail hl _
  · split
    · exact keeps_fail hl _
    · rename_i idxs _
      refine ⟨fun v hv => hl v (mem_removeIdxs hv), fun w hw => ?_, rfl⟩
      refine Except.ok.inj hw ▸ hP.list fun x hx => ?_
      obtain ⟨i, hi, hxi⟩ := mem_filterMap.mp hx
      have hne := ne_nil_of_mem hi
      exact hP.mono ⟨fun _ => by simpa using hne, fun _ => by simpa using hne⟩
        (hl x (mem_of_getElem? hxi))

theorem keeps_fill (hl : l.All P) (hargs : ∀ v, .ok v ∈ args → Puts P E kind spec v) :
    (fill E kind spec l args).Keeps P R l := by
  unfold fill
  split
  · rename_i v
    cases hp : prepare E kind spec l.flags v with
    | error e =>
      simp only [varrFill, hp, Except.map]
      exact keeps_fail hl e
    | ok r =>
      simp only [varrFill, hp, Except.map]
      have hall : Varr.All P ⟨r.1, l.vec.map fun _ => r.2⟩ := by
        intro w hw
        obtain ⟨-, -, rfl⟩ := mem_map.mp hw
        exact (hargs v mem_cons_self l.flags r hp).2
      exact ⟨hall, fun w hw => Except.ok.inj hw ▸ hP.list hall, tuple_prepare hp⟩
  · exact keeps_fail hl _
  · exact keeps_fail hl _

theorem keeps_clear (hl : l.All P) : (clear l args).Keeps P R l := by
  unfold clear
  split
  · exact ⟨fun _ hv => absurd hv not_mem_nil,
      fun w hw => Except.ok.inj hw ▸ hP.plain (by simp [Val.tp]), rfl⟩
  · exact keeps_fail hl _

/-- One case for each operation on a list. -/
theorem keeps_exec {op : Op} (hl : l.All P) (hfit : OpFits P R E kind spec l op)
    (h : exec E kind spec l op = some o) : o.Keeps P R l := by
  cases op with
  | push args => exact Option.some.inj h ▸ keeps_push hP hl hfit
  | extend args => exact Option.some.inj h ▸ keeps_extend hP hl hfit
  | unshift args => exact Option.some.inj h ▸ keeps_unshift hP hl hfit
  | pop args => exact Option.some.inj h ▸ keeps_pop hP hl
  | shift args => exact Option.some.inj h ▸ keeps_shift hP hl
  | splice args => exact keeps_splice hP hl hfit h
  | arrayAss idx opr val => exact keeps_arrayAss hP hl hfit h
  | sliceAss start stop step opr rhs => exact keeps_sliceAss hP hl hfit h
  | remove closure limit => exact Option.some.inj h ▸ keeps_remove hP hl
  | fill args => exact Option.some.inj h ▸ keeps_fill hP hl hfit
  | clear args => exact Option.some.inj h ▸ keeps_clear hP hl

end Elements
end ThingsDB.Lists
