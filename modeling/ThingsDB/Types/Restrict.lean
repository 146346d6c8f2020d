import ThingsDB.Types.Decl
import Mathlib.Data.Nat.Bitwise

/-!
# Restrictions of things

`ti_spec_from_raw` reads the restriction of a thing from a text into 16 bits, and `ti_spec_raw`
writes the text for these bits. The words of `field__mapping` are found by their place, the types
and the enumerators of the collection by their name or by their id.
-/

namespace ThingsDB.Types

/-- A type or an enumerator with an id, as far as a restriction depends on it. -/
structure Named (α : Type) where
  id : α
  name : Text
  lock : Bool

/-- The types and the enumerators of a collection; both are kept by name and by id. -/
structure Names where
  types : List (Named TypeId)
  enums : List (Named EnumId)
  types_nodup : (types.map Named.id).Nodup
  enums_nodup : (enums.map Named.id).Nodup

section Read

/-- The errors of `ti_spec_from_raw`. -/
inductive RestrictError where
  | empty
  | pattern
  | range
  | typeInUse (name : Text)
  | enumInUse (name : Text)
  | nonAscii
  | unknown (word : Text)
  deriving DecidableEq, Repr

def RestrictError.ex : RestrictError → Ex
  | empty => ⟨.valueError, "restriction must not be empty"⟩
  | pattern => ⟨.valueError, "restriction must not contain a pattern condition"⟩
  | range => ⟨.valueError, "restriction must not contain a range condition"⟩
  | typeInUse name =>
    ⟨.operation, "failed to set restriction; type `" ++ name.str ++ "` is in use"⟩
  | enumInUse name =>
    ⟨.operation, "failed to set restriction; enum type `" ++ name.str ++ "` is in use"⟩
  | nonAscii => ⟨.valueError, "restriction must only contain valid ASCII characters"⟩
  | unknown word =>
    ⟨.valueError, "failed to set restriction; unknown type `" ++ word.str ++ "`"⟩

variable {α : Type}

def byStrn (l : List (Named α)) (word : Text) : Option (Named α) := l.find? fun x => x.name = word

def byId {n : ℕ} (l : List (Named (Fin n))) (id : ℕ) : Option (Named (Fin n)) :=
  l.find? fun x => x.id = id

/-- The part of `ti_spec_from_raw` for the names of a collection. -/
def specOfName (names : Option Names) (spec : ℕ) (word : Text) : Except RestrictError ℕ :=
  match names.bind fun c => byStrn c.types word with
  | some type => if type.lock then .error (.typeInUse type.name) else .ok (spec ||| type.id)
  | none =>
    match names.bind fun c => byStrn c.enums word with
    | some enum =>
      if enum.lock then .error (.enumInUse enum.name) else .ok (spec ||| (enum.id ||| 0x6000))
    | none => .error (if isAscii word then .unknown word else .nonAscii)

/-- `ti_spec_from_raw`. The test for a pattern looks at the specification and not at the text, and a
word of `field__mapping` replaces the specification. -/
def specFromRaw (names : Option Names) (raw : Text) : Except RestrictError ℕ :=
  if raw = [] then .error .empty
  else
    match splitNillable raw with
    | none => .error .empty
    | some (nillable, word) =>
      let spec := if nillable then 0x8000 else 0
      if spec = '/'.toNat then .error .pattern
      else if word.getLast? = some '>' then .error .range
      else
        match fieldMap word with
        | some base => .ok base.code
        | none => specOfName names spec word

end Read

section Write

def fieldMapBySpec (spec : ℕ) : Option Text :=
  if spec < 0x4000 ∨ 0x4000 + fieldMapping.length ≤ spec then none
  else (fieldMapping[spec - 0x4000]?).map Prod.fst

/-- The name for a specification without `TI_SPEC_NILLABLE`. -/
def specName (names : Option Names) (spec : ℕ) : Option Text :=
  match fieldMapBySpec spec with
  | some name => some name
  | none =>
    if 0x6000 ≤ spec then (names.bind fun c => byId c.enums (spec &&& 0x1fff)).map Named.name
    else (names.bind fun c => byId c.types spec).map Named.name

def specRaw (names : Option Names) (spec : ℕ) : Option Text :=
  if spec = 0x4000 then some ['a', 'n', 'y']
  else (specName names (spec &&& 0x7fff)).map (· ++ if spec &&& 0x8000 ≠ 0 then ['?'] else [])

end Write

variable {spec : ℕ} {base : Base}

section Bits

theorem nillable_or (h : spec < 0x8000) : 0x8000 ||| spec = 0x8000 + spec := by
  exact (Nat.two_pow_add_eq_or_of_lt (i := 15) h 1).symm

theorem enum_or {id : ℕ} (h : id < 0x2000) : id ||| 0x6000 = 0x6000 + id := by
  rw [Nat.or_comm]
  exact (Nat.two_pow_add_eq_or_of_lt (i := 13) h 3).symm

theorem and_mask_nillable (spec : ℕ) : spec &&& 0x7fff = spec % 0x8000 :=
  Nat.and_two_pow_sub_one_eq_mod spec 15

theorem and_enum_mask (spec : ℕ) : spec &&& 0x1fff = spec % 0x2000 :=
  Nat.and_two_pow_sub_one_eq_mod spec 13

theorem and_nillable (h : spec < 0x8000) : spec &&& 0x8000 = 0 := by
  rw [Nat.and_comm, show 0x8000 = 2 ^ 15 by rfl, Nat.two_pow_and, Nat.testBit_lt_two_pow h,
    Bool.toNat_false, Nat.mul_zero]

theorem nillable_or_and_nillable (spec : ℕ) : (0x8000 ||| spec) &&& 0x8000 ≠ 0 := by
  rw [Nat.and_comm, show 0x8000 = 2 ^ 15 by rfl, Nat.two_pow_and, Nat.testBit_or,
    Nat.testBit_two_pow_self, Bool.true_or, Bool.toNat_true, Nat.mul_one]
  decide

end Bits

section RoundTrip

variable {names : Option Names} {raw word : Text}

def mark (nillable : Bool) : Text := if nillable then ['?'] else []

theorem eq_of_splitNillable {nillable : Bool} (h : splitNillable raw = some (nillable, word)) :
    raw = word ++ mark nillable ∧ (raw.getLast? = some '?' ↔ nillable) := by
  rw [splitNillable] at h
  split_ifs at h with hlast hdrop
  · cases h
    obtain ⟨init, rfl⟩ := List.getLast?_eq_some_iff.mp hlast
    simp [mark]
  · cases h
    simp [mark, hlast]

/-- The text for the bits of a specification is its name with the mark. -/
theorem specRaw_or (h : spec < 0x8000) (hany : spec ≠ 0x4000) (nillable : Bool) :
    specRaw names ((if nillable then 0x8000 else 0) ||| spec) =
      (specName names spec).map (· ++ mark nillable) := by
  cases nillable with
  | true =>
    have hne : 0x8000 ||| spec ≠ 0x4000 := by
      rw [nillable_or h]
      omega
    rw [if_pos rfl, specRaw, if_neg hne, if_pos (nillable_or_and_nillable spec),
      and_mask_nillable, nillable_or h, Nat.add_mod_left, Nat.mod_eq_of_lt h]
    rfl
  | false =>
    rw [if_neg Bool.false_ne_true, Nat.zero_or, specRaw, if_neg hany,
      if_neg (not_not.mpr (and_nillable h)), and_mask_nillable, Nat.mod_eq_of_lt h]
    rfl

/-- Each word is at the place of its specification. -/
theorem fieldMapBySpec_code (h : fieldMap word = some base) :
    fieldMapBySpec base.code = some word ∧ base.code < 0x8000 := by
  have hall : ∀ x ∈ fieldMapping, fieldMapBySpec x.2.code = some x.1 ∧ x.2.code < 0x8000 := by
    decide
  exact hall (word, base) (mem_fieldMapping h)

theorem fieldMap_any (h : fieldMap word = some base) :
    base.code = 0x4000 ↔ word = ['a', 'n', 'y'] := by
  have hall : ∀ x ∈ fieldMapping, x.2.code = 0x4000 ↔ x.1 = ['a', 'n', 'y'] := by
    decide
  exact hall (word, base) (mem_fieldMapping h)

theorem byId_of_byStrn {n : ℕ} {l : List (Named (Fin n))} (hl : (l.map Named.id).Nodup)
    {x : Named (Fin n)} (h : byStrn l word = some x) : byId l x.id = some x ∧ x.name = word := by
  have hmem : x ∈ l := List.mem_of_find?_eq_some h
  refine ⟨?_, by simpa [byStrn] using List.find?_some h⟩
  cases hfind : byId l x.id with
  | none => simpa [byId] using List.find?_eq_none.mp hfind x hmem
  | some y =>
    have hy : y ∈ l := List.mem_of_find?_eq_some hfind
    have hid : (y.id : ℕ) = x.id := by simpa [byId] using List.find?_some hfind
    rw [List.inj_on_of_nodup_map hl hy hmem (Fin.ext hid)]

/-- A name which is found gives the specification of a name. -/
theorem specName_of_specOfName {nillable : ℕ} (h : specOfName names nillable word = .ok spec) :
    ∃ b < 0x8000, b ≠ 0x4000 ∧ spec = nillable ||| b ∧ specName names b = some word := by
  rw [specOfName] at h
  cases htype : names.bind fun c => byStrn c.types word with
  | some type =>
    rw [htype] at h
    obtain ⟨c, rfl, hfind⟩ := Option.bind_eq_some_iff.mp htype
    obtain ⟨hid, hname⟩ := byId_of_byStrn c.types_nodup hfind
    simp only at h
    split_ifs at h with hlock
    have hlt : (type.id : ℕ) < 0x4000 := type.id.isLt
    refine ⟨type.id, by omega, by omega, (Except.ok.inj h).symm, ?_⟩
    have hnone : fieldMapBySpec type.id = none := if_pos (.inl hlt)
    rw [specName, hnone]
    simp only
    rw [if_neg (by omega), Option.bind_some, hid, Option.map_some, hname]
  | none =>
    rw [htype] at h
    simp only at h
    cases henum : names.bind fun c => byStrn c.enums word with
    | none => simp [henum] at h
    | some enum =>
      rw [henum] at h
      obtain ⟨c, rfl, hfind⟩ := Option.bind_eq_some_iff.mp henum
      obtain ⟨hid, hname⟩ := byId_of_byStrn c.enums_nodup hfind
      simp only at h
      split_ifs at h with hlock
      have hlt : (enum.id : ℕ) < 0x2000 := enum.id.isLt
      rw [enum_or hlt] at h
      refine ⟨0x6000 + enum.id, by omega, by omega, (Except.ok.inj h).symm, ?_⟩
      have hnone : fieldMapBySpec (0x6000 + enum.id) = none := by
        refine if_pos (.inr ?_)
        rw [show fieldMapping.length = 26 by rfl]
        omega
      have hmod : (0x6000 + (enum.id : ℕ)) % 0x2000 = enum.id := by omega
      rw [specName, hnone]
      simp only
      rw [if_pos (by omega), and_enum_mask, hmod, Option.bind_some, hid, Option.map_some, hname]

/-- A restriction is written as it was read iff it is not a word of `field__mapping` with a mark. -/
theorem specRaw_specFromRaw {spec : ℕ} (h : specFromRaw names raw = .ok spec) :
    specRaw names spec = some raw ↔
      ¬ (raw.getLast? = some '?' ∧ (fieldMap raw.dropLast).isSome = true) := by
  rw [specFromRaw] at h
  split_ifs at h with hempty
  cases hsplit : splitNillable raw with
  | none => simp [hsplit] at h
  | some r =>
    obtain ⟨nillable, word⟩ := r
    obtain ⟨rfl, hlast⟩ := eq_of_splitNillable hsplit
    have hpattern : (if nillable = true then 0x8000 else 0) ≠ '/'.toNat := by
      cases nillable <;> decide
    simp only [hsplit] at h
    rw [if_neg hpattern] at h
    by_cases hrange : word.getLast? = some '>'
    · simp [hrange] at h
    rw [if_neg hrange] at h
    rw [hlast]
    cases hmap : fieldMap word with
    | none =>
      rw [hmap] at h
      obtain ⟨b, hlt, hne, rfl, hname⟩ := specName_of_specOfName h
      rw [specRaw_or hlt hne, hname]
      cases nillable with
      | false => simp
      | true => simp [mark, hmap]
    | some base =>
      rw [hmap] at h
      obtain rfl := Except.ok.inj h
      obtain ⟨hword, hlt⟩ := fieldMapBySpec_code hmap
      have hwritten : specRaw names base.code = some word := by
        by_cases hbase : base.code = 0x4000
        · rw [specRaw, if_pos hbase, (fieldMap_any hmap).mp hbase]
        · have hor : specRaw names ((if false = true then 0x8000 else 0) ||| base.code) = _ :=
            specRaw_or hlt hbase false
          rw [specName, hword] at hor
          simpa [mark] using hor
      rw [hwritten]
      cases nillable with
      | false => simp [mark]
      | true => simp [mark, hmap]

/-- A type with a mark. -/
theorem specRaw_specFromRaw_type :
    specRaw (some ⟨[⟨3, ['T'], false⟩], [], by simp, by simp⟩) 0x8003 = some ['T', '?'] :=
  (specRaw_specFromRaw (by decide)).mpr (by decide)

/-- A word with a mark is read as the word. -/
theorem int_mark_lost : specFromRaw none ['i', 'n', 't', '?'] = .ok Base.int.code ∧
    specRaw none Base.int.code = some ['i', 'n', 't'] := by decide

end RoundTrip

end ThingsDB.Types
