import ThingsDB.Lists.Flags
import ThingsDB.Lib.Transition

/-!
# Runs on lists with flags

The lists of a query with the operations on them, and the ones which make a list: a
literal, a slice, a copy and `values`. Slices, slice assignments, the result of `splice`
and `values` take over elements without the flags.
-/

namespace ThingsDB.Lists

open Util Transition List

/-- A distance divided by a step, with one more for a rest, by the division of C. -/
def count (d step : ℤ) : ℤ := d.tdiv step + if d.tmod step = 0 then 0 else 1

def sliceCount (start stop step : ℤ) : ℤ := count (stop - start) step

/-- Read elements from an index on; none if an index is not in the list. -/
def sliceLoop {α : Type} (xs : List α) (step : ℤ) : ℕ → ℤ → Option (List α)
  | 0, _ => some []
  | k + 1, i =>
    if 0 ≤ i ∧ i < xs.length then
      xs[i.toNat]?.bind fun x => (sliceLoop xs step k (i + step)).map (x :: ·)
    else none

/-- The elements of `ti_varr_from_slice`. -/
def vecFromSlice {α : Type} (xs : List α) (start stop step : ℤ) : Option (List α) :=
  let n := sliceCount start stop step
  sliceLoop xs step (if n < 0 then 0 else n.toNat) start

/-- `ti_varr_from_slice`; it is not defined when an index is not one of the list. -/
def varrFromSlice (vec : List Val) (start stop step : ℤ) : Option Varr :=
  (vecFromSlice vec start stop step).map fun vec => ⟨⟨false, false, false⟩, vec⟩

mutual

/-- `varr__copy` and `varr__dup`, where things and rooms are replaced by their copies. -/
def copyVal (thing room : ℕ → ℕ) : Val → Val
  | .thing t => .thing (thing t)
  | .wrap type t => .wrap type (thing t)
  | .wano spec t => .wano spec (thing t)
  | .room id => .room (room id)
  | .arr flags vec => .arr { flags with tuple := true } (copyVec thing room vec)
  | v => v

def copyVec (thing room : ℕ → ℕ) : List Val → List Val
  | [] => []
  | v :: vec => copyVal thing room v :: copyVec thing room vec

end

/-- `ti_varr_to_list`: without another reference nothing is done. -/
def varrToList (shared : Bool) (l : Varr) : Varr :=
  if shared then { l with flags := { l.flags with tuple := false } } else l

/-- `ti_varr_copy` and `ti_varr_dup` -/
def varrCopy (thing room : ℕ → ℕ) (l : Varr) : Varr :=
  ⟨{ l.flags with tuple := false }, copyVec thing room l.vec⟩

/-- `ti_val_copy` and `ti_val_dup` for an array, which is made assignable if the copy is not a deep
one. -/
def valCopy (deep shared : Bool) (thing room : ℕ → ℕ) (l : Varr) : Varr :=
  if deep then varrCopy thing room l else varrToList shared l

def values (vals : List Val) : Varr := ⟨⟨false, false, false⟩, vals⟩

/-- What is done with the lists of a query; the list an operation is on has a number, and `shared`
tells if there is another reference to it. -/
inductive Action where
  | literal (args : List Arg)
  | apply (i : ℕ) (spec : Spec) (op : Op)
  | slice (i : ℕ) (start stop step : Option Arg)
  | copy (i : ℕ) (deep shared : Bool) (thing room : ℕ → ℕ)
  | values (vals : List Val)

/-- One list more if a result is a list; `fill` gives the list itself. -/
def addResult (lists : List Varr) (op : Op) (rval : Except Ex Val) : List Varr :=
  match op, rval with
  | .fill _, _ => lists
  | _, .ok (.arr flags vec) => lists ++ [⟨flags, vec⟩]
  | _, _ => lists

section Step

variable (E : Env) (kind : ℕ → Kind)

def act (lists : List Varr) : Action → Option (List Varr)
  | .literal args =>
    match appendLoop E kind .any args ⟨⟨false, false, false⟩, []⟩ with
    | (some _, _) => some lists
    | (none, l) => some (lists ++ [l])
  | .apply i spec op => do
    let l ← lists[i]?
    let o ← exec E kind spec l op
    some (addResult (lists.set i o.varr) op o.rval)
  | .slice i start stop step => do
    let l ← lists[i]?
    match readSliceIndices E kind l.vec.length start stop step with
    | .error _ => some lists
    | .ok (start, stop, step) => (varrFromSlice l.vec start stop step).map fun l => lists ++ [l]
  | .copy i deep shared thing room =>
    lists[i]?.map fun l => lists ++ [valCopy deep shared thing room l]
  | .values vals => some (lists ++ [values vals])

/-- An argument which is a list is one of the lists, or is in one of them. -/
def Known (lists : List Varr) (v : Val) : Prop := v.tp = .arr → ∃ l ∈ lists, v ∈ parts l.toVal

/-- Where flags may be lost: elements which are put in a list are accepted by the first check
or need no flag, those of a slice assignment are covered by the flags the list has, and the
elements which `splice` removes need no flag. -/
def CarefulOp (spec : Spec) (l : Varr) : Op → Prop
  | .push args | .unshift args | .fill args => ∀ v, .ok v ∈ args → Fits E kind spec v
  | .extend args => ∀ flags vec, args = [.ok (.arr flags vec)] → ∀ v ∈ vec, Fits E kind spec v
  | .splice args => (∀ v, .ok v ∈ args → Fits E kind spec v) ∧
      ∀ i c rest, args = .ok (.int i) :: .ok (.int c) :: rest →
        ∀ i' c', spliceArgs l.vec.length i.toInt c.toInt = some (i', c') →
          ∀ v ∈ (l.vec.drop i').take c', Plain v
  | .arrayAss idx (some _) _ =>
    ∀ i, numeric E kind idx l.vec.length = .ok i → (l.vec.getD i .nil).tp ≠ .set
  | .arrayAss _ none val => ∀ v, val = .ok v → Fits E kind spec v
  | .sliceAss _ _ _ _ rhs =>
    ∀ flags vec, rhs.arg l = .ok (.arr flags vec) → ∀ v ∈ vec, tells l.flags v = true
  | _ => True

/-- The elements of a slice need no flag; the values of a thing need none and are neither
lists nor sets, since those are shared with the thing. -/
def CarefulAct (lists : List Varr) : Action → Prop
  | .literal args => ∀ v, .ok v ∈ args → Known lists v
  | .apply i spec op => (∀ v, .ok v ∈ op.args → Known lists v) ∧
      ∀ l, lists[i]? = some l → CarefulOp E kind spec l op
  | .slice i start stop step => ∀ l, lists[i]? = some l →
      ∀ start' stop' step', readSliceIndices E kind l.vec.length start stop step =
          .ok (start', stop', step') →
        ∀ l', varrFromSlice l.vec start' stop' step' = some l' → ∀ v ∈ l'.vec, Plain v
  | .copy _ _ _ _ _ => True
  | .values vals => ∀ v ∈ vals, Plain v ∧ v.tp ≠ .arr ∧ v.tp ≠ .set

end Step

variable {E : Env} {kind : ℕ → Kind} {spec : Spec} {l : Varr} {v : Val}

theorem Varr.Sound.sound_of_mem (hl : l.Sound) (hv : v ∈ l.vec) : sound v :=
  (Varr.sound_iff.mp hl v hv).2

theorem covers_aToB {a b x : Val} {opr : OprToken} {flags : ArrFlags} (ha : a.tp ≠ .set)
    (h : Opr.aToB E (fun t => (kind t).type?) (fun _ _ => none) a b opr = some (.ok x)) :
    Covers flags x := by
  rcases Opr.gives_aToB x h with hx | ⟨_, m, _, rfl, -⟩
  · rcases hx with hx | hx | hx | hx
    all_goals
      cases x with
      | int | float | str | bytes => exact ⟨rfl, rfl⟩
      | _ => simp [Val.tp] at hx
  · exact absurd rfl ha

/-- The conditions for each operation are those for the flags. -/
theorem CarefulOp.fits {op : Op} (hl : l.Sound) (hs : ∀ v, .ok v ∈ op.args → sound v)
    (hcare : CarefulOp E kind spec l op) :
    OpFits Covers (fun v => sound v = true) E kind spec l op := by
  cases op with
  | push args => exact fun v hv => (hcare v hv).puts (hs v hv)
  | unshift args => exact fun v hv => (hcare v hv).puts (hs v hv)
  | fill args => exact fun v hv => (hcare v hv).puts (hs v hv)
  | extend args =>
    rintro flags vec rfl v hv
    have hvec := soundVec_iff.mp (hs _ mem_cons_self)
    exact (hcare flags vec rfl v hv).puts (hvec v hv).2
  | splice args =>
    rintro i c rest rfl
    refine ⟨?_, ?_⟩
    · intro v hv
      have hmem := mem_cons_of_mem (.ok (.int i)) (mem_cons_of_mem (.ok (.int c)) hv)
      exact (hcare.1 v hmem).puts (hs v hmem)
    · intro i' c' hic
      apply soundVec_iff.mpr
      intro w hw
      exact (hcare.2 i c rest rfl i' c' hic w hw).covers
        (hl.sound_of_mem (mem_of_mem_drop (mem_of_mem_take hw)))
  | arrayAss idx opr val =>
    cases opr with
    | some opr => exact fun i v x hi _ hx => covers_aToB (hcare i hi) hx
    | none =>
      intro v hv
      exact (hcare v hv).puts (hs v (hv ▸ mem_cons_of_mem _ mem_cons_self))
  | sliceAss start stop step opr rhs =>
    intro flags vec ha v hv
    have hvec := soundVec_iff.mp (rhs.forall_arg hl (fun w hw => hs w (mem_append_right _ hw)) ha)
    exact ⟨hcare flags vec ha v hv, (hvec v hv).2⟩
  | pop | shift | remove | clear => trivial

section Copies

variable (thing room : ℕ → ℕ)

mutual

theorem hasThings_copyVal (v : Val) : hasThings (copyVal thing room v) = hasThings v := by
  cases v with
  | arr flags vec => exact anyThings_copyVec vec
  | _ => rfl

theorem anyThings_copyVec (vec : List Val) :
    anyThings (copyVec thing room vec) = anyThings vec := by
  cases vec with
  | nil => rfl
  | cons v vec => simp only [copyVec, anyThings, hasThings_copyVal v, anyThings_copyVec vec]

end

mutual

theorem hasRooms_copyVal (v : Val) : hasRooms (copyVal thing room v) = hasRooms v := by
  cases v with
  | arr flags vec => exact anyRooms_copyVec vec
  | _ => rfl

theorem anyRooms_copyVec (vec : List Val) : anyRooms (copyVec thing room vec) = anyRooms vec := by
  cases vec with
  | nil => rfl
  | cons v vec => simp only [copyVec, anyRooms, hasRooms_copyVal v, anyRooms_copyVec vec]

end

mutual

theorem sound_copyVal (v : Val) : sound (copyVal thing room v) = sound v := by
  cases v with
  | arr flags vec => exact soundVec_copyVec { flags with tuple := true } flags rfl rfl vec
  | _ => rfl

theorem soundVec_copyVec (flags' flags : ArrFlags) (ht : flags'.mht = flags.mht)
    (hr : flags'.mhr = flags.mhr) (vec : List Val) :
    soundVec flags' (copyVec thing room vec) = soundVec flags vec := by
  cases vec with
  | nil => rfl
  | cons v vec =>
    simp only [copyVec, soundVec, tells, hasThings_copyVal, hasRooms_copyVal, ht, hr,
      sound_copyVal v, soundVec_copyVec flags' flags ht hr vec]

end

theorem sound_varrToList (shared : Bool) (hl : l.Sound) : (varrToList shared l).Sound := by
  cases shared with
  | false => exact hl
  | true => exact Varr.sound_iff.mpr fun v hv => (Varr.sound_iff.mp hl v hv).mono ⟨id, id⟩

theorem sound_valCopy (deep shared : Bool) (hl : l.Sound) :
    (valCopy deep shared thing room l).Sound := by
  cases deep with
  | false => exact sound_varrToList shared hl
  | true =>
    have heq := soundVec_copyVec thing room { l.flags with tuple := false } l.flags rfl rfl l.vec
    exact heq.trans hl

end Copies

theorem mem_of_sliceLoop {vec vals : List Val} {step i : ℤ} {k : ℕ}
    (h : sliceLoop vec step k i = some vals) : ∀ v ∈ vals, v ∈ vec := by
  induction k generalizing i vals with
  | zero =>
    obtain rfl := Option.some.inj h
    exact fun _ hv => absurd hv not_mem_nil
  | succ k ih =>
    rw [sliceLoop, Option.ite_none_right_eq_some] at h
    obtain ⟨x, hx, h⟩ := Option.bind_eq_some_iff.mp h.2
    obtain ⟨rest, hrest, rfl⟩ := Option.map_eq_some_iff.mp h
    exact forall_mem_cons.mpr ⟨mem_of_getElem? hx, ih hrest⟩

theorem mem_of_varrFromSlice {vec : List Val} {start stop step : ℤ}
    (h : varrFromSlice vec start stop step = some l) (hv : v ∈ l.vec) : v ∈ vec := by
  obtain ⟨vals, hvals, rfl⟩ := Option.map_eq_some_iff.mp h
  exact mem_of_sliceLoop hvals v hv

def AllSound (lists : List Varr) : Prop := ∀ l ∈ lists, l.Sound

variable {lists lists' : List Varr}

section

variable (h : AllSound lists)

include h

theorem AllSound.append (hl : l.Sound) : AllSound (lists ++ [l]) := by
  intro l' hl'
  rcases mem_append.mp hl' with hmem | hmem
  · exact h l' hmem
  · exact mem_singleton.mp hmem ▸ hl

theorem AllSound.known (hv : Known lists v) : sound v := by
  by_cases harr : v.tp = .arr
  · obtain ⟨l, hl, hmem⟩ := hv harr
    refine forall_parts (Q := fun v => sound v = true) ?_ l.toVal (h l hl) v hmem
    exact fun flags vec hvec w hw => (soundVec_iff.mp hvec w hw).2
  · exact sound_of_tp harr

theorem AllSound.addResult {op : Op} {rval : Except Ex Val}
    (hr : ∀ v, rval = .ok v → sound v) : AllSound (addResult lists op rval) := by
  unfold Lists.addResult
  split
  · exact h
  · rename_i flags vec _
    exact h.append (hr _ rfl)
  · exact h

theorem AllSound.act {a : Action} (hcare : CarefulAct E kind lists a)
    (hact : act E kind lists a = some lists') : AllSound lists' := by
  cases a with
  | literal args =>
    have hputs : ∀ v, .ok v ∈ args → Puts Covers E kind .any v := by
      intro v hv
      have hfit : Fits E kind .any v := Or.inl (by simp [Val.isSpec])
      exact hfit.puts (h.known (hcare v hv))
    have hempty : Varr.All Covers ⟨⟨false, false, false⟩, []⟩ := fun _ hv => absurd hv not_mem_nil
    have hgrow := (grows_appendLoop elements_covers args _ hputs).all elements_covers hempty
    simp only [Lists.act] at hact
    split at hact
    · exact Option.some.inj hact ▸ h
    · rename_i l heq
      rw [heq] at hgrow
      exact Option.some.inj hact ▸ h.append (Varr.sound_iff.mpr hgrow)
  | apply i spec op =>
    obtain ⟨l, hi, hact⟩ := Option.bind_eq_some_iff.mp hact
    obtain ⟨o, ho, hact⟩ := Option.bind_eq_some_iff.mp hact
    have hl := h l (mem_of_getElem? hi)
    have hfits := (hcare.2 l hi).fits hl fun v hv => h.known (hcare.1 v hv)
    have hkeeps := keeps_exec elements_covers (Varr.sound_iff.mp hl) hfits ho
    refine Option.some.inj hact ▸ AllSound.addResult ?_ hkeeps.rval
    intro l' hl'
    rcases mem_or_eq_of_mem_set hl' with hmem | rfl
    · exact h l' hmem
    · exact Varr.sound_iff.mpr hkeeps.all
  | slice i start stop step =>
    obtain ⟨l, hi, hact⟩ := Option.bind_eq_some_iff.mp hact
    have hl := h l (mem_of_getElem? hi)
    split at hact
    · exact Option.some.inj hact ▸ h
    · rename_i start' stop' step' hidx
      obtain ⟨l', hl', rfl⟩ := Option.map_eq_some_iff.mp hact
      refine h.append (Varr.sound_iff.mpr fun v hv => ?_)
      exact (hcare l hi start' stop' step' hidx l' hl' v hv).covers
        (hl.sound_of_mem (mem_of_varrFromSlice hl' hv))
  | copy i deep shared thing room =>
    obtain ⟨l, hi, rfl⟩ := Option.map_eq_some_iff.mp hact
    exact h.append (sound_valCopy thing room deep shared (h l (mem_of_getElem? hi)))
  | values vals =>
    refine Option.some.inj hact ▸ h.append (Varr.sound_iff.mpr fun v hv => ?_)
    obtain ⟨hplain, harr, -⟩ := hcare v hv
    exact hplain.covers (sound_of_tp harr)

end

def thingList : Varr := ⟨⟨false, true, false⟩, [.thing 1]⟩

def emptyList : Varr := ⟨⟨false, false, false⟩, []⟩

def nillableSpec : Spec := ⟨.typeId 0, true, by simp⟩

theorem not_allSound {r : Option (List Varr)}
    (h : r.any (fun lists => lists.any fun l => !sound l.toVal) = true) :
    ∃ lists, r = some lists ∧ ¬AllSound lists := by
  cases r with
  | none => exact absurd h (by simp)
  | some lists =>
    obtain ⟨l, hl, hs⟩ := any_eq_true.mp h
    refine ⟨lists, rfl, fun hall => ?_⟩
    have hsound : sound l.toVal = true := hall l hl
    simp [hsound] at hs

end ThingsDB.Lists
