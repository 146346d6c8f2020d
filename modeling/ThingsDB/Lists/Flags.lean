import ThingsDB.Lists.Preserve

/-!
# The flags of lists

A list which contains a thing has to have the flag for things, and one which contains a
room the flag for rooms. The operations which put values in a list one by one keep this
up, as long as a value is one of the specification.
-/

namespace ThingsDB.Lists

open Util

mutual

def hasThings : Val → Bool
  | .thing _ | .wrap _ _ | .wano _ _ => true
  | .set imap => imap.things ≠ []
  | .arr _ vec => anyThings vec
  | _ => false

def anyThings : List Val → Bool
  | [] => false
  | v :: vec => hasThings v || anyThings vec

end

mutual

def hasRooms : Val → Bool
  | .room _ => true
  | .arr _ vec => anyRooms vec
  | _ => false

def anyRooms : List Val → Bool
  | [] => false
  | v :: vec => hasRooms v || anyRooms vec

end

/-- The flags tell of what is in a value. -/
def tells (flags : ArrFlags) (v : Val) : Bool :=
  (!hasThings v || flags.mht) && (!hasRooms v || flags.mhr)

mutual

/-- The flags of the lists in a value are right. -/
def sound : Val → Bool
  | .arr flags vec => soundVec flags vec
  | _ => true

def soundVec (flags : ArrFlags) : List Val → Bool
  | [] => true
  | v :: vec => tells flags v && sound v && soundVec flags vec

end

def Plain (v : Val) : Prop := hasThings v = false ∧ hasRooms v = false

def Covers (flags : ArrFlags) (v : Val) : Prop := tells flags v = true ∧ sound v = true

def Varr.Sound (l : Varr) : Prop := sound l.toVal = true

variable {E : Env} {kind : ℕ → Kind} {spec : Spec} {flags flags' : ArrFlags} {v : Val}
variable {vec : List Val} {l : Varr}

theorem soundVec_iff : soundVec flags vec ↔ ∀ v ∈ vec, Covers flags v := by
  induction vec with
  | nil => simp [soundVec]
  | cons v vec ih => simp [soundVec, ih, Covers]

theorem Varr.sound_iff : l.Sound ↔ ∀ v ∈ l.vec, Covers l.flags v := soundVec_iff

theorem tells_iff :
    tells flags v ↔
      (hasThings v → flags.mht) ∧ (hasRooms v → flags.mhr) := by
  simp [tells, imp_iff_not_or]

theorem anyThings_iff : anyThings vec ↔ ∃ v ∈ vec, hasThings v := by
  induction vec with
  | nil => simp [anyThings]
  | cons v vec ih => simp [anyThings, ih]

theorem anyRooms_iff : anyRooms vec ↔ ∃ v ∈ vec, hasRooms v := by
  induction vec with
  | nil => simp [anyRooms]
  | cons v vec ih => simp [anyRooms, ih]

theorem tells_of_sound (h : sound (.arr flags vec)) : tells flags (.arr flags' vec) := by
  have hall := soundVec_iff.mp h
  rw [tells_iff]
  constructor
  · intro hthings
    obtain ⟨v, hv, hhas⟩ := anyThings_iff.mp hthings
    exact (tells_iff.mp (hall v hv).1).1 hhas
  · intro hrooms
    obtain ⟨v, hv, hhas⟩ := anyRooms_iff.mp hrooms
    exact (tells_iff.mp (hall v hv).1).2 hhas

theorem tells_mono (hle : FlagsLe flags flags') (h : tells flags v) : tells flags' v := by
  rw [tells_iff] at h ⊢
  exact ⟨fun ht => hle.1 (h.1 ht), fun hr => hle.2 (h.2 hr)⟩

theorem Covers.mono (hle : FlagsLe flags flags') (h : Covers flags v) : Covers flags' v :=
  ⟨tells_mono hle h.1, h.2⟩

theorem Plain.covers (h : Plain v) (hs : sound v) : Covers flags v := by
  refine ⟨tells_iff.mpr ⟨?_, ?_⟩, hs⟩
  · exact fun ht => absurd ht (by simp [h.1])
  · exact fun hr => absurd hr (by simp [h.2])

theorem sound_of_tp (h : v.tp ≠ .arr) : sound v := by
  cases v with
  | arr => exact absurd rfl h
  | _ => rfl

theorem covers_setMayFlags (h : sound (.arr flags' vec)) (tuple : Bool) :
    Covers (setMayFlags flags flags') (.arr { flags' with tuple := tuple } vec) := by
  have hle : FlagsLe flags' (setMayFlags flags flags') :=
    ⟨fun hm => by simp [setMayFlags, hm], fun hm => by simp [setMayFlags, hm]⟩
  refine ⟨tells_mono hle (tells_of_sound h), ?_⟩
  have hall := soundVec_iff.mp h
  exact soundVec_iff.mpr fun v hv => (hall v hv).mono ⟨id, id⟩

theorem sound_vsetToTuple (imap : Imap) :
    sound (.arr (vsetToTuple imap).1 (vsetToTuple imap).2) := by
  apply soundVec_iff.mpr
  intro v hv
  obtain ⟨t, ht, rfl⟩ := List.mem_map.mp hv
  refine ⟨tells_iff.mpr ⟨fun _ => ?_, fun hr => absurd hr Bool.false_ne_true⟩, rfl⟩
  simpa [vsetToTuple] using List.ne_nil_of_mem ht

theorem flagsLe_toArr (flags : ArrFlags) (v : Val) : FlagsLe flags (toArr flags v).1 := by
  constructor
  all_goals cases v <;> simp +contextual [toArr, setMayFlags]

/-- A value which is put in an array by its callback is covered by the flags then. -/
theorem covers_toArr (h : sound v) :
    FlagsLe flags (toArr flags v).1 ∧ Covers (toArr flags v).1 (toArr flags v).2 := by
  refine ⟨flagsLe_toArr flags v, ?_⟩
  cases v with
  | arr f vec => exact covers_setMayFlags h true
  | set imap => exact covers_setMayFlags (sound_vsetToTuple imap) true
  | _ => exact ⟨rfl, rfl⟩

/-- A value is accepted by the first check of `ti_val_varr_prepare`, or needs no flag. -/
def Fits (E : Env) (kind : ℕ → Kind) (spec : Spec) (v : Val) : Prop :=
  v.isSpec E kind spec = true ∨ Plain v

theorem Fits.puts (hfit : Fits E kind spec v) (hs : sound v) : Puts Covers E kind spec v := by
  intro flags r h
  rcases prepare_cases h with ⟨-, rfl⟩ | ⟨hspec, -, rfl⟩
  · exact covers_toArr hs
  · have hplain : Plain v := hfit.resolve_left (by simp [hspec])
    exact ⟨FlagsLe.refl flags, hplain.covers hs⟩

theorem elements_covers : Elements Covers fun v => sound v = true where
  mono := Covers.mono
  nil := fun _ => ⟨rfl, rfl⟩
  plain := sound_of_tp
  elem := fun h => h.2
  list := soundVec_iff.mpr

end ThingsDB.Lists
