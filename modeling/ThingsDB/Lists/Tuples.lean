import ThingsDB.Lists.Sound

/-!
# Tuples

Arrays in arrays are tuples, and an array which is the value of a property is not. An
array is converted where it becomes an element, and back where it is assigned, unless
there is no other reference to it.
-/

namespace ThingsDB.Lists

open Util Transition List

def isElem : Val → Bool
  | .arr flags _ => flags.tuple
  | .set _ | .future _ | .module _ => false
  | _ => true

mutual

def nested : Val → Bool
  | .arr _ vec => nestedVec vec
  | _ => true

def nestedVec : List Val → Bool
  | [] => true
  | v :: vec => isElem v && nested v && nestedVec vec

end

mutual

/-- A value without the flags for things and rooms, and with a name as the string it is. -/
def mutability : Val → Val
  | .arr flags vec => .arr ⟨flags.tuple, false, false⟩ (mutabilityVec vec)
  | .name d => .str d
  | v => v

def mutabilityVec : List Val → List Val
  | [] => []
  | v :: vec => mutability v :: mutabilityVec vec

end

/-- The arrays which are values of a query, and those which are values of properties. -/
structure Arrays where
  lists : List Varr
  props : List Varr

inductive Src where
  | list (i : ℕ)
  | prop (i : ℕ)

namespace Arrays

variable (s : Arrays)

def get : Src → Option Varr
  | .list i => s.lists[i]?
  | .prop i => s.props[i]?

def set (l : Varr) : Src → Arrays
  | .list i => { s with lists := s.lists.set i l }
  | .prop i => { s with props := s.props.set i l }

def add (l : Varr) : Arrays := { s with lists := s.lists ++ [l] }

def addProp (l : Varr) : Arrays := { s with props := s.props ++ [l] }

end Arrays

/-- The loop of `do__f_filter`. -/
def filterLoop (closure : Val → ℕ → Except Ex Bool) : List (Val × ℕ) → Except Ex (List Val)
  | [] => .ok []
  | (v, idx) :: rest => do
    let b ← closure v idx
    let vec ← filterLoop closure rest
    .ok (if b then v :: vec else vec)

/-- What is done with arrays. The results of the closure of `map` are given; `shared` tells
if there is another reference to the array which is assigned or copied. -/
inductive ArrayAction where
  | literal (args : List Arg)
  | map (results : List Arg)
  | filter (src : Src) (closure : Val → ℕ → Except Ex Bool)
  | apply (src : Src) (spec : Spec) (op : Op)
  | index (src : Src) (idx : Arg)
  | slice (src : Src) (start stop step : Option Arg)
  | copy (src : Src) (deep shared : Bool) (thing room : ℕ → ℕ)
  | values (vals : List Val)
  | assign (src : Src) (shared : Bool)
  | decode (src : Src)

section Step

variable (E : Env) (kind : ℕ → Kind)

def collect (s : Arrays) (args : List Arg) : Arrays :=
  match appendLoop E kind .any args ⟨⟨false, false, false⟩, []⟩ with
  | (some _, _) => s
  | (none, l) => s.add l

def addArr (s : Arrays) : Except Ex Val → Arrays
  | .ok (.arr flags vec) => s.add ⟨flags, vec⟩
  | _ => s

def actOn (s : Arrays) : ArrayAction → Option Arrays
  | .literal args | .map args => some (collect E kind s args)
  | .filter src closure => do
    let l ← s.get src
    match filterLoop closure l.vec.zipIdx with
    | .error _ => some s
    | .ok vec => some (collect E kind s (vec.map .ok))
  | .apply src spec op => do
    let l ← s.get src
    let o ← exec E kind spec l op
    some (addArr (s.set o.varr src) o.rval)
  | .index src idx => do
    let l ← s.get src
    some (addArr s ((numeric E kind idx l.vec.length).map fun i => l.vec.getD i .nil))
  | .slice src start stop step => do
    let l ← s.get src
    match readSliceIndices E kind l.vec.length start stop step with
    | .error _ => some s
    | .ok (start, stop, step) => (varrFromSlice l.vec start stop step).map s.add
  | .copy src deep shared thing room =>
    (s.get src).map fun l => s.add (valCopy deep shared thing room l)
  | .values vals => some (s.add (values vals))
  | .assign src shared => (s.get src).map fun l => s.addProp (varrToList shared l)
  | .decode src => do
    let l ← s.get src
    match decodeVal l.toVal with
    | some (.arr flags vec) => some (s.addProp ⟨flags, vec⟩)
    | _ => some s

/-- An argument which is an array is one of the arrays, or is in one of them. -/
def KnownArr (s : Arrays) (v : Val) : Prop :=
  v.tp = .arr → ∃ l, (l ∈ s.lists ∨ l ∈ s.props) ∧ v ∈ parts l.toVal

/-- No specification of elements is a list or a set. The values of a thing are neither arrays
nor sets for `values`, and no property has a future or a module. A tuple which is assigned has
another reference. -/
def CarefulArr (s : Arrays) : ArrayAction → Prop
  | .literal args | .map args => ∀ v, .ok v ∈ args → KnownArr s v
  | .apply _ spec op => (∀ v, .ok v ∈ op.args → KnownArr s v) ∧
      spec.base ≠ .arr ∧ spec.base ≠ .set
  | .values vals => ∀ v ∈ vals, v.tp ≠ .arr ∧ Elem v
  | .assign src shared => ∀ l, s.get src = some l → l.flags.tuple = true → shared = true
  | _ => True

end Step

/-- Nested arrays are tuples, and those of properties are not. -/
structure Tidy (s : Arrays) : Prop where
  lists : ∀ l ∈ s.lists, nested l.toVal = true
  props : ∀ l ∈ s.props, nested l.toVal = true ∧ l.flags.tuple = false

variable {E : Env} {kind : ℕ → Kind} {spec : Spec} {l : Varr} {v : Val} {s s' : Arrays}

def Tupled (_ : ArrFlags) (v : Val) : Prop := isElem v = true ∧ nested v = true

variable {flags : ArrFlags} {vec : List Val}

theorem nestedVec_iff (flags : ArrFlags) : nestedVec vec ↔ ∀ v ∈ vec, Tupled flags v := by
  induction vec with
  | nil => simp [nestedVec]
  | cons v vec ih => simp [nestedVec, ih, Tupled]

theorem elements_tupled : Elements Tupled fun v => nested v = true where
  mono := fun _ h => h
  nil := fun _ => ⟨rfl, rfl⟩
  plain := by
    intro v hv
    cases v with
    | arr => exact absurd rfl hv
    | _ => rfl
  elem := fun h => h.2
  list := (nestedVec_iff _).mpr

theorem tupled_of_tp (harr : v.tp ≠ .arr) (helem : Elem v) : Tupled flags v := by
  cases v with
  | arr => exact absurd rfl harr
  | set => exact absurd rfl helem.1
  | future => exact absurd rfl helem.2.1
  | module => exact absurd rfl helem.2.2
  | _ => exact ⟨rfl, rfl⟩

theorem tupled_toArr (flags : ArrFlags) (h : nested v) :
    FlagsLe flags (toArr flags v).1 ∧ Tupled (toArr flags v).1 (toArr flags v).2 := by
  refine ⟨flagsLe_toArr flags v, ?_⟩
  cases v with
  | arr f vec => exact ⟨rfl, h⟩
  | set imap =>
    refine ⟨rfl, (nestedVec_iff flags).mpr fun w hw => ?_⟩
    obtain ⟨t, -, rfl⟩ := mem_map.mp hw
    exact ⟨rfl, rfl⟩
  | _ => exact ⟨rfl, rfl⟩

theorem tp_of_holds (harr : spec.base ≠ .arr) (hspec : v.isSpec E kind spec = false)
    (h : spec.Holds E kind v) : v.tp ≠ .arr := by
  have hany : spec.base ≠ .any := by
    intro hb
    rw [Spec.eq_any_of_base hb] at hspec
    simp [Val.isSpec] at hspec
  rcases h with ⟨-, hnil⟩ | h
  · simp [hnil]
  · cases v with
    | arr =>
      cases hbase : spec.base <;>
        simp_all [Base.Holds, Val.tp, Val.isStr, Val.isRaw, Val.isNumber, Val.isDatetimeStrict,
          Val.isTimeval]
    | _ => simp [Val.tp]

theorem puts_tupled (harr : spec.base ≠ .arr) (hset : spec.base ≠ .set) (h : nested v) :
    Puts Tupled E kind spec v := by
  intro flags r hr
  rcases prepare_cases hr with ⟨-, rfl⟩ | ⟨hspec, hholds, rfl⟩
  · exact tupled_toArr flags h
  · have helem := (prepare_elem hset hr).1
    exact ⟨FlagsLe.refl flags, tupled_of_tp (tp_of_holds harr hspec hholds) helem⟩

theorem tupled_aToB {a b x : Val} {opr : OprToken} (ha : Tupled flags a)
    (h : Opr.aToB E (fun t => (kind t).type?) (fun _ _ => none) a b opr = some (.ok x)) :
    Tupled flags x := by
  rcases Opr.gives_aToB x h with hx | ⟨_, m, _, rfl, -⟩
  · refine tupled_of_tp ?_ ?_ <;> rcases hx with hx | hx | hx | hx <;> simp [Elem, hx]
  · exact absurd ha.1 Bool.false_ne_true

/-- Every operation puts in an array what can be in it. -/
theorem opFits_tupled {op : Op} (hl : nested l.toVal)
    (hs : ∀ v, .ok v ∈ op.args → nested v) (harr : spec.base ≠ .arr)
    (hset : spec.base ≠ .set) : OpFits Tupled (fun v => nested v = true) E kind spec l op := by
  have hall : ∀ v ∈ l.vec, Tupled l.flags v := (nestedVec_iff _).mp hl
  have hputs : ∀ v, .ok v ∈ op.args → Puts Tupled E kind spec v :=
    fun v hv => puts_tupled harr hset (hs v hv)
  cases op with
  | push args => exact hputs
  | unshift args => exact hputs
  | fill args => exact hputs
  | extend args =>
    rintro flags vec rfl v hv
    have hvec := (nestedVec_iff flags).mp (hs _ mem_cons_self)
    exact puts_tupled harr hset (hvec v hv).2
  | splice args =>
    rintro i c rest rfl
    refine ⟨fun v hv => hputs v (mem_cons_of_mem _ (mem_cons_of_mem _ hv)), ?_⟩
    intro i' c' _
    apply (nestedVec_iff l.flags).mpr
    exact fun v hv => hall v (mem_of_mem_drop (mem_of_mem_take hv))
  | arrayAss idx opr val =>
    cases opr with
    | none => exact fun v hv => hputs v (hv ▸ mem_cons_of_mem _ mem_cons_self)
    | some opr =>
      intro i v x hi _ hx
      refine tupled_aToB ?_ hx
      have hlt := numeric_lt hi
      rw [getD_eq_getElem?_getD, getElem?_eq_getElem hlt, Option.getD_some]
      exact hall _ (getElem_mem hlt)
  | sliceAss start stop step opr rhs =>
    intro flags vec ha
    exact (nestedVec_iff l.flags).mp
      (rhs.forall_arg hl (fun w hw => hs w (mem_append_right _ hw)) ha)
  | pop | shift | remove | clear => trivial

namespace Tidy

section

variable (h : Tidy s)

include h

theorem of_get {src : Src} (hl : s.get src = some l) : nested l.toVal := by
  cases src with
  | list i => exact h.lists l (mem_of_getElem? hl)
  | prop i => exact (h.props l (mem_of_getElem? hl)).1

theorem known (hv : KnownArr s v) : nested v := by
  by_cases harr : v.tp = .arr
  · obtain ⟨l, hl, hlv⟩ := hv harr
    have hnested : nested l.toVal = true := by
      rcases hl with hl | hl
      · exact h.lists l hl
      · exact (h.props l hl).1
    refine forall_parts (Q := fun v => nested v = true) ?_ l.toVal hnested v hlv
    exact fun flags vec hvec w hw => ((nestedVec_iff flags).mp hvec w hw).2
  · exact elements_tupled.plain harr

theorem add (hl : nested l.toVal) : Tidy (s.add l) where
  lists := by
    intro l' hl'
    rcases mem_append.mp hl' with hmem | hmem
    · exact h.lists l' hmem
    · exact mem_singleton.mp hmem ▸ hl
  props := h.props

theorem addProp (hl : nested l.toVal) (ht : l.flags.tuple = false) :
    Tidy (s.addProp l) where
  lists := h.lists
  props := by
    intro l' hl'
    rcases mem_append.mp hl' with hmem | hmem
    · exact h.props l' hmem
    · exact mem_singleton.mp hmem ▸ ⟨hl, ht⟩

theorem set {src : Src} {l' : Varr} (hget : s.get src = some l)
    (hl' : nested l'.toVal) (ht : l'.flags.tuple = l.flags.tuple) : Tidy (s.set l' src) := by
  cases src with
  | list i =>
    refine ⟨fun x hx => ?_, h.props⟩
    rcases mem_or_eq_of_mem_set hx with hmem | rfl
    · exact h.lists x hmem
    · exact hl'
  | prop i =>
    refine ⟨h.lists, fun x hx => ?_⟩
    rcases mem_or_eq_of_mem_set hx with hmem | rfl
    · exact h.props x hmem
    · exact ⟨hl', ht.trans (h.props l (mem_of_getElem? hget)).2⟩

theorem addArr {r : Except Ex Val} (hr : ∀ v, r = .ok v → nested v) : Tidy (addArr s r) := by
  unfold Lists.addArr
  split
  · exact h.add (hr _ rfl)
  · exact h

theorem collect {args : List Arg} (hargs : ∀ v, .ok v ∈ args → nested v) :
    Tidy (collect E kind s args) := by
  have hputs : ∀ v, .ok v ∈ args → Puts Tupled E kind .any v :=
    fun v hv => puts_tupled (by simp [Spec.any]) (by simp [Spec.any]) (hargs v hv)
  have hempty : Varr.All Tupled ⟨⟨false, false, false⟩, []⟩ :=
    fun _ hv => absurd hv not_mem_nil
  have hgrow := (grows_appendLoop elements_tupled args _ hputs).all elements_tupled hempty
  unfold Lists.collect
  split
  · exact h
  · rename_i l heq
    rw [heq] at hgrow
    exact h.add ((nestedVec_iff l.flags).mpr hgrow)

end

end Tidy

theorem mem_filterLoop {closure : Val → ℕ → Except Ex Bool} {items : List (Val × ℕ)}
    (h : filterLoop closure items = .ok vec) : ∀ v ∈ vec, ∃ idx, (v, idx) ∈ items := by
  induction items generalizing vec with
  | nil =>
    obtain rfl : [] = vec := Except.ok.inj h
    simp
  | cons item items ih =>
    obtain ⟨v, idx⟩ := item
    cases hb : closure v idx with
    | error e => simp [filterLoop, hb, bind, Except.bind] at h
    | ok b =>
      cases hrest : filterLoop closure items with
      | error e => simp [filterLoop, hb, hrest, bind, Except.bind] at h
      | ok rest =>
        obtain rfl : (if b then v :: rest else rest) = vec := by
          simpa [filterLoop, hb, hrest, bind, Except.bind] using h
        intro x hx
        have hx : x = v ∨ x ∈ rest := by
          split_ifs at hx
          · exact mem_cons.mp hx
          · exact Or.inr hx
        rcases hx with rfl | hx
        · exact ⟨idx, mem_cons_self⟩
        · obtain ⟨i, hi⟩ := ih hrest x hx
          exact ⟨i, mem_cons_of_mem _ hi⟩

theorem isElem_copyVal (thing room : ℕ → ℕ) (h : isElem v) : isElem (copyVal thing room v) := by
  cases v with
  | arr flags vec => rfl
  | set | future | module => exact absurd h Bool.false_ne_true
  | _ => rfl

mutual

theorem nested_copyVal (thing room : ℕ → ℕ) (v : Val) (h : nested v) :
    nested (copyVal thing room v) := by
  cases v with
  | arr flags vec => exact nestedVec_copyVec thing room vec h
  | _ => rfl

theorem nestedVec_copyVec (thing room : ℕ → ℕ) (vec : List Val) (h : nestedVec vec) :
    nestedVec (copyVec thing room vec) := by
  cases vec with
  | nil => rfl
  | cons v vec =>
    simp only [nestedVec, Bool.and_eq_true] at h
    simp only [copyVec, nestedVec, Bool.and_eq_true]
    exact ⟨⟨isElem_copyVal thing room h.1.1, nested_copyVal thing room v h.1.2⟩,
      nestedVec_copyVec thing room vec h.2⟩

end

mutual

/-- An element is decoded and put in an array, and differs from what was packed in the flags for
things and rooms only. -/
theorem decodeVal_spec (v : Val) (flags : ArrFlags) (helem : isElem v) (h : nested v) :
    ∃ q r, decodeVal v = some q ∧ valPush flags q = some r ∧ r.1.tuple = flags.tuple ∧
      isElem r.2 ∧ nested r.2 ∧ mutability r.2 = mutability v := by
  cases v with
  | arr f vec =>
    obtain ⟨x, hx, -, hnested, hmut⟩ := decodeVec_spec vec ⟨false, false, false⟩ h
    have htuple : f.tuple = true := helem
    refine ⟨.arr x.1 x.2, _, by rw [decodeVal, hx]; rfl, rfl, rfl, rfl, hnested, ?_⟩
    simp [toArr, mutability, hmut, htuple]
  | set | future | module => exact absurd helem Bool.false_ne_true
  | _ => exact ⟨_, _, rfl, rfl, rfl, rfl, rfl, rfl⟩

theorem decodeVec_spec (vec : List Val) (flags : ArrFlags) (h : nestedVec vec) :
    ∃ r, decodeVec flags vec = some r ∧ r.1.tuple = flags.tuple ∧ nestedVec r.2 ∧
      mutabilityVec r.2 = mutabilityVec vec := by
  cases vec with
  | nil => exact ⟨_, rfl, rfl, rfl, rfl⟩
  | cons v vec =>
    simp only [nestedVec, Bool.and_eq_true] at h
    obtain ⟨q, x, hq, hx, ht, helem, hnested, hmut⟩ := decodeVal_spec v flags h.1.1 h.1.2
    obtain ⟨rest, hrest, ht', hnested', hmut'⟩ := decodeVec_spec vec x.1 h.2
    refine ⟨(rest.1, x.2 :: rest.2), ?_, ht'.trans ht, ?_, by simp [mutabilityVec, hmut, hmut']⟩
    · simp [decodeVec, hq, hx, hrest]
    · simp [nestedVec, helem, hnested, hnested']

end

theorem decodeVal_list (h : nested l.toVal) (ht : l.flags.tuple = false) :
    ∃ q, decodeVal l.toVal = some q ∧ mutability q = mutability l.toVal := by
  obtain ⟨r, hr, htuple, -, hmut⟩ := decodeVec_spec l.vec ⟨false, false, false⟩ h
  refine ⟨.arr r.1 r.2, by rw [Varr.toVal, decodeVal, hr]; rfl, ?_⟩
  simp [Varr.toVal, mutability, hmut, htuple, ht]

theorem nested_valCopy (deep shared : Bool) (thing room : ℕ → ℕ) (h : nested l.toVal) :
    nested (valCopy deep shared thing room l).toVal := by
  cases deep with
  | true => exact nestedVec_copyVec thing room l.vec h
  | false =>
    cases shared with
    | true => exact (nestedVec_iff l.flags).mpr ((nestedVec_iff l.flags).mp h)
    | false => exact h

theorem Tidy.actOn {a : ArrayAction} (h : Tidy s) (hcare : CarefulArr s a)
    (hact : actOn E kind s a = some s') : Tidy s' := by
  cases a with
  | literal args =>
    exact Option.some.inj hact ▸ h.collect fun v hv => h.known (hcare v hv)
  | map args =>
    exact Option.some.inj hact ▸ h.collect fun v hv => h.known (hcare v hv)
  | filter src closure =>
    obtain ⟨l, hl, hact⟩ := Option.bind_eq_some_iff.mp hact
    split at hact
    · exact Option.some.inj hact ▸ h
    · rename_i vec hvec
      refine Option.some.inj hact ▸ h.collect ?_
      intro v hv
      obtain ⟨w, hw, hwv⟩ := mem_map.mp hv
      obtain rfl := Except.ok.inj hwv
      obtain ⟨idx, hidx⟩ := mem_filterLoop hvec w hw
      exact ((nestedVec_iff l.flags).mp (h.of_get hl) w (fst_mem_of_mem_zipIdx hidx)).2
  | apply src spec op =>
    obtain ⟨l, hl, hact⟩ := Option.bind_eq_some_iff.mp hact
    obtain ⟨o, ho, hact⟩ := Option.bind_eq_some_iff.mp hact
    obtain ⟨hknown, harr, hset⟩ := hcare
    have hnested := h.of_get hl
    have hfits : OpFits Tupled (fun v => nested v = true) E kind spec l op :=
      opFits_tupled hnested (fun v hv => h.known (hknown v hv)) harr hset
    have hkeeps := keeps_exec elements_tupled ((nestedVec_iff _).mp hnested) hfits ho
    refine Option.some.inj hact ▸ Tidy.addArr ?_ hkeeps.rval
    exact h.set hl ((nestedVec_iff o.varr.flags).mpr hkeeps.all) hkeeps.tuple
  | index src idx =>
    obtain ⟨l, hl, hact⟩ := Option.bind_eq_some_iff.mp hact
    refine Option.some.inj hact ▸ h.addArr ?_
    intro v hv
    cases hi : numeric E kind idx l.vec.length with
    | error e => simp [hi, Except.map] at hv
    | ok i =>
      obtain rfl : l.vec.getD i .nil = v := by simpa [hi, Except.map] using hv
      have hlt := numeric_lt hi
      rw [getD_eq_getElem?_getD, getElem?_eq_getElem hlt, Option.getD_some]
      exact ((nestedVec_iff l.flags).mp (h.of_get hl) _ (getElem_mem hlt)).2
  | slice src start stop step =>
    obtain ⟨l, hl, hact⟩ := Option.bind_eq_some_iff.mp hact
    split at hact
    · exact Option.some.inj hact ▸ h
    · obtain ⟨l', hl', rfl⟩ := Option.map_eq_some_iff.mp hact
      refine h.add ((nestedVec_iff l'.flags).mpr fun v hv => ?_)
      exact (nestedVec_iff l.flags).mp (h.of_get hl) v (mem_of_varrFromSlice hl' hv)
  | copy src deep shared thing room =>
    obtain ⟨l, hl, rfl⟩ := Option.map_eq_some_iff.mp hact
    exact h.add (nested_valCopy deep shared thing room (h.of_get hl))
  | values vals =>
    refine Option.some.inj hact ▸ h.add ((nestedVec_iff ⟨false, false, false⟩).mpr fun v hv => ?_)
    exact tupled_of_tp (hcare v hv).1 (hcare v hv).2
  | assign src shared =>
    obtain ⟨l, hl, rfl⟩ := Option.map_eq_some_iff.mp hact
    cases shared with
    | true =>
      have hnested := h.of_get hl
      exact h.addProp hnested rfl
    | false =>
      refine h.addProp (h.of_get hl) ?_
      by_contra htuple
      exact absurd (hcare l hl (by simpa [varrToList] using htuple)) Bool.false_ne_true
  | decode src =>
    obtain ⟨l, hl, hact⟩ := Option.bind_eq_some_iff.mp hact
    obtain ⟨r, hr, htuple, hnested, -⟩ :=
      decodeVec_spec l.vec ⟨false, false, false⟩ (h.of_get hl)
    simp only [Varr.toVal, decodeVal, hr, Option.map_some] at hact
    exact Option.some.inj hact ▸ h.addProp hnested htuple

def nestedList : Varr := ⟨⟨false, false, false⟩, [.arr ⟨true, false, false⟩ [.int 1]]⟩

end ThingsDB.Lists
