import ThingsDB.Fn
import ThingsDB.Types.Field

/-!
# Conditions of fields

`ti_condition_field_info_init` and `ti_condition_field_re_init`: the ranges, the builtin patterns
and the patterns of the user, with the default values which are given or made. What the C library
and the regular expressions do is not looked at.
-/

namespace ThingsDB.Types

def Text.raw (s : Text) : Raw := s.map fun c => UInt8.ofNat c.toNat

@[simp] theorem Text.length_raw (s : Text) : s.raw.length = s.length := List.length_map _

/-- The result of `strx_to_int64`: the value, where the reading ends, and if `errno` is
`ERANGE`. -/
structure Num where
  val : Int64
  rest : Text
  erange : Bool

structure Reader where
  toInt64 : Text → Num
  /-- `strx_to_double` -/
  toDouble : Text → Float × Text
  /-- There is memory for a string. -/
  malloc : ℕ → Bool
  /-- The error of `ti_regex_from_strn`. -/
  regexErr : Text → Option Ex
  reEmail : Text
  reUrl : Text
  reTel : Text

/-- What stands before `<`. -/
inductive InfoKind where
  | bool
  | str
  | utf8
  | int
  | float
  | email
  | url
  | tel
  deriving DecidableEq

/-- The switch on the first character. The word ends with `>`, so it is longer than these. -/
def infoKinds : List (Text × InfoKind) :=
  [
    (['b', 'o', 'o', 'l'], .bool),
    (['s', 't', 'r'], .str),
    (['i', 'n', 't'], .int),
    (['f', 'l', 'o', 'a', 't'], .float),
    (['e', 'm', 'a', 'i', 'l'], .email),
    (['u', 'r', 'l'], .url),
    (['u', 't', 'f', '8'], .utf8),
    (['t', 'e', 'l'], .tel)
  ]

structure Subject where
  field : Text
  type : Text
  specRaw : Text

namespace Subject

variable (u : Subject)

def valueErr (text : String) : Ex :=
  ⟨.valueError, "invalid declaration for `" ++ u.field.str ++ "` on type `" ++ u.type.str ++
    "`; " ++ text ++ docSee "overview/type"⟩

/-- The declaration up to a rest of the word. -/
def upTo (nillable : Bool) (rest : Text) : String :=
  Text.str (u.specRaw.take (u.specRaw.length - (rest.length + nillable.toNat)))

/-- The label `expect_end`. -/
def expectEnd (nillable : Bool) (rest : Text) : Ex :=
  u.valueErr ("expecting character `>` after `" ++ u.upTo nillable rest ++ "`")

def invalidDval : Ex := u.valueErr "the provided default value does not match the condition"

def smallerMax : Ex :=
  u.valueErr "expecting the maximum value to be greater than or equal to the minimum value"

def missingColon : Ex :=
  u.valueErr "expecting a colon (:) after the minimum value of the range"

def nanValue : Ex :=
  u.valueErr "not-a-number (nan) values are not allowed to specify a range"

end Subject

section Init

variable (R : Reader) (E : ThingsDB.Env) (u : Subject) (nillable : Bool)

def overflowErr : Ex := ⟨.overflow, "integer overflow"⟩

def memoryErr : Ex := ⟨.memory, "memory allocation error"⟩

/-- The bounds of a range of integers or of lengths, and what follows them. -/
def readBounds (s : Text) (check : Int64 → Option Ex) : Except Ex (Int64 × Int64 × Text) :=
  let lo := R.toInt64 s
  if lo.erange then .error overflowErr
  else
    match check lo.val, lo.rest with
    | some e, _ => .error e
    | none, ':' :: s =>
      let hi := R.toInt64 s
      let ma := if hi.rest = s then Int64.maxValue else hi.val
      if hi.erange then .error overflowErr
      else if ma < lo.val then .error u.smallerMax
      else .ok (lo.val, ma, hi.rest)
    | none, _ => .error u.missingColon

/-- `ti_str_dval_n`, where the length has 32 bits. -/
def strDvalN (n : ℕ) : Val := .str (List.replicate (n % 2 ^ 32) 45)

/-- The default of a range of lengths, and what follows it. -/
def srangeDval (mi ma : Int64) : Text → Except Ex (Val × Text)
  | ':' :: s =>
    let d := s.dropLast
    if (d.length : ℤ) < mi.toInt ∨ ma.toInt < d.length then .error u.invalidDval
    else .ok (.str (Text.raw d), s.drop d.length)
  | s =>
    if nillable then .ok (.nil, s)
    else if mi = 0 then .ok (.str [], s)
    else if R.malloc mi.toInt.toNat then .ok (strDvalN mi.toInt.toNat, s)
    else .error memoryErr

/-- The default of a range of integers, if none is given. -/
def clampZero (mi ma : Int64) : Int64 :=
  if mi < 0 ∧ ma < 0 then ma else if 0 < mi ∧ 0 < ma then mi else 0

def irangeDval (mi ma : Int64) : Text → Except Ex (Val × Text)
  | ':' :: s =>
    let d := R.toInt64 s
    if d.erange then .error overflowErr
    else if d.val < mi ∨ ma < d.val then .error u.invalidDval
    else .ok (.int d.val, d.rest)
  | s => if nillable then .ok (.nil, s) else .ok (.int (clampZero mi ma), s)

def drangeDval (mi ma : Float) : Text → Except Ex (Val × Text)
  | ':' :: s =>
    let d := R.toDouble s
    if d.1.isNaN then .error u.nanValue
    else if d.1 < mi ∨ ma < d.1 then .error u.invalidDval
    else .ok (.float d.1, d.2)
  | s =>
    if nillable then .ok (.nil, s)
    else
      .ok (.float (if mi < 0.0 ∧ ma < 0.0 then ma else if 0.0 < mi ∧ 0.0 < ma then mi else 0.0), s)

/-- The check that a range ends with `>`. -/
def closeRange (info : Val → Info) : Except Ex (Val × Text) → Except Ex Info
  | .error e => .error e
  | .ok (v, rest) => if rest = ['>'] then .ok (info v) else .error (u.expectEnd nillable rest)

/-- `TI_SPEC_STR_RANGE` and `TI_SPEC_UTF8_RANGE` -/
def srangeInit (s : Text) : Except Ex Info :=
  let negative (mi : Int64) :=
    if mi < 0 then some (u.valueErr "the minimum value for a string range must not be negative")
    else none
  match readBounds R u s negative with
  | .error e => .error e
  | .ok (mi, ma, rest) =>
    closeRange u nillable (.srange mi.toInt.toNat ma.toInt.toNat)
      (srangeDval R u nillable mi ma rest)

/-- `TI_SPEC_INT_RANGE` -/
def irangeInit (s : Text) : Except Ex Info :=
  match readBounds R u s fun _ => none with
  | .error e => .error e
  | .ok (mi, ma, rest) => closeRange u nillable (.irange mi ma) (irangeDval R u nillable mi ma rest)

/-- `TI_SPEC_FLOAT_RANGE` -/
def drangeInit (s : Text) : Except Ex Info :=
  let lo := R.toDouble s
  if lo.1.isNaN then .error u.nanValue
  else
    match lo.2 with
    | ':' :: s =>
      let hi := R.toDouble s
      let ma := if hi.2 = s then 1.0 / 0.0 else hi.1
      if ma.isNaN then .error u.nanValue
      else if ma < lo.1 then .error u.smallerMax
      else closeRange u nillable (.drange lo.1 ma) (drangeDval R u nillable lo.1 ma hi.2)
    | _ => .error u.missingColon

/-- `TI_SPEC_BOOL` -/
def boolInit (s : Text) : Except Ex Info :=
  if s = ['t', 'r', 'u', 'e', '>'] then .ok (.dval (.bool true))
  else if s = ['f', 'a', 'l', 's', 'e', '>'] then .ok (.dval (.bool false))
  else .error (u.valueErr "the default value must be either true or false")

/-- `TI_SPEC_REMATCH` with a builtin pattern. -/
def builtinInit (re : Text) (what : String) (s : Text) : Except Ex Info :=
  if E.regexTest re.raw (Text.raw s.dropLast) then .ok (.re re (.str (Text.raw s.dropLast)))
  else .error (u.valueErr ("the default value must be " ++ what))

def InfoKind.spec : InfoKind → CondSpec
  | bool => .bool
  | str => .strRange
  | utf8 => .utf8Range
  | int => .intRange
  | float => .floatRange
  | email | url | tel => .rematch

/-- What stands between `<` and the end of the word. -/
def InfoKind.init (s : Text) : InfoKind → Except Ex Info
  | bool => boolInit u s
  | str | utf8 => srangeInit R u nillable s
  | int => irangeInit R u nillable s
  | float => drangeInit R u nillable s
  | email => builtinInit E u R.reEmail "an email address" s
  | url => builtinInit E u R.reUrl "a URL" s
  | tel => builtinInit E u R.reTel "a telephone number" s

def infoInit (word : Text) : Except Ex (CondSpec × Info) :=
  match infoKinds.find? fun k => k.1.isPrefixOf word with
  | none => .error (u.valueErr
      "additional info <..> can be applied to `int`, `float`, `str`, `email`, `url` and `tel`")
  | some (start, kind) =>
    match word.drop start.length with
    | '<' :: s =>
      match kind.init R E u nillable s with
      | .error e => .error e
      | .ok i => .ok (kind.spec, i)
    | s => .error (u.valueErr ("expecting a `<` character after `" ++ u.upTo nillable s ++ "`"))

/-- The pattern and the default of a word, by the last `<` before a `>` at the end. -/
def splitDval (word : Text) : Option (Text × Option Text) :=
  if word.getLast? = some '>' then
    let body := word.dropLast
    let dval := (body.reverse.takeWhile (· ≠ '<')).reverse
    if dval.length = body.length then none
    else some (body.take (body.length - (dval.length + 1)), some dval)
  else some (word, none)

/-- A pattern ends with `/`, or with `/i`. -/
def endsPattern (pattern : Text) : Bool :=
  if pattern.getLast? = some 'i' then pattern.dropLast.getLast? = some '/'
  else pattern.getLast? = some '/'

def patternDval : Option Text → Val
  | some d => .str d.raw
  | none => if nillable then .nil else .str []

def reInit (word : Text) : Except Ex (CondSpec × Info) :=
  match splitDval word with
  | none => .error (u.valueErr "pattern condition syntax is invalid")
  | some (pattern, d) =>
    let dval := patternDval nillable d
    if !endsPattern pattern then .error (u.valueErr "pattern condition syntax is invalid")
    else
      match R.regexErr pattern with
      | some e => .error e
      | none =>
        if dval.isStr ∧ !E.regexTest pattern.raw dval.data then
          .error (u.valueErr ("a non-nillable pattern requires a valid default value; " ++
            "for example: /(e|h|l|o)+/<hello>"))
        else .ok (.rematch, .re pattern dval)

end Init

/-- Numbers end within the text they are read from. -/
def Reader.Lawful (R : Reader) : Prop := ∀ s, (R.toInt64 s).rest <:+ s

/-- The conditions which are accepted, where `n` is the length of the word. The default of a
range of lengths is the one which is given or the empty string, or it is filled up. -/
inductive Accepted (E : ThingsDB.Env) (nillable : Bool) (n : ℕ) : CondSpec → Info → Prop where
  | bool (b : Bool) : Accepted E nillable n .bool (.dval (.bool b))
  | re (p : Text) (r : Raw) (h : E.regexTest p.raw r = true) :
      Accepted E nillable n .rematch (.re p (.str r))
  | reNil (p : Text) (h : nillable = true) : Accepted E nillable n .rematch (.re p .nil)
  | int (mi ma i : Int64) (hmi : mi ≤ i) (hma : i ≤ ma) :
      Accepted E nillable n .intRange (.irange mi ma (.int i))
  | intNil (mi ma : Int64) (h : nillable = true) :
      Accepted E nillable n .intRange (.irange mi ma .nil)
  | float (i : Info) : Accepted E nillable n .floatRange i
  | str (k : InfoKind) (hk : k = .str ∨ k = .utf8) (mi ma : ℕ) (r : Raw) (hmi : mi ≤ r.length)
      (hma : r.length ≤ ma) (hn : r.length ≤ n) :
      Accepted E nillable n k.spec (.srange mi ma (.str r))
  | fill (k : InfoKind) (hk : k = .str ∨ k = .utf8) (mi ma : ℕ) (hle : mi ≤ ma) :
      Accepted E nillable n k.spec (.srange mi ma (strDvalN mi))
  | strNil (k : InfoKind) (hk : k = .str ∨ k = .utf8) (mi ma : ℕ) (h : nillable = true) :
      Accepted E nillable n k.spec (.srange mi ma .nil)

variable {spec : CondSpec} {word : Text}

section Accepted

variable {R : Reader} {E : ThingsDB.Env} {u : Subject} {nillable : Bool} {n : ℕ} {s rest : Text}
  {mi ma : Int64} {v : Val} {i : Info}

theorem readBounds_ok (hR : R.Lawful) {check : Int64 → Option Ex}
    (h : readBounds R u s check = .ok (mi, ma, rest)) :
    check mi = none ∧ mi ≤ ma ∧ rest.length ≤ s.length := by
  unfold readBounds at h
  simp only at h
  split_ifs at h
  split at h
  · cases h
  · next s' hcheck hrest =>
    split_ifs at h with _ _ hma
    all_goals
      simp only [Except.ok.injEq, Prod.mk.injEq] at h
      obtain ⟨rfl, rfl, rfl⟩ := h
      have hlo := (hR s).length_le
      have hhi := (hR s').length_le
      rw [hrest, List.length_cons] at hlo
      refine ⟨hcheck, ?_, by omega⟩
    · exact Int64.not_lt.mp ‹_›
    · exact Int64.not_lt.mp ‹_›
  · cases h

theorem closeRange_ok {info : Val → Info} {r : Except Ex (Val × Text)}
    (h : closeRange u nillable info r = .ok i) : ∃ v, r = .ok (v, ['>']) ∧ i = info v := by
  unfold closeRange at h
  split at h
  · cases h
  · split_ifs at h with hrest
    cases h
    exact ⟨_, by rw [hrest], rfl⟩

theorem toNat_le_toNat (h : mi ≤ ma) : mi.toInt.toNat ≤ ma.toInt.toNat :=
  Int.toNat_le_toNat (Int64.le_iff_toInt_le.mp h)

theorem accepted_srange (hR : R.Lawful) (k : InfoKind) (hk : k = .str ∨ k = .utf8)
    (hn : s.length ≤ n) (h : srangeInit R u nillable s = .ok i) :
    Accepted E nillable n k.spec i := by
  unfold srangeInit at h
  simp only at h
  split at h
  · cases h
  · next mi ma rest hbounds =>
    obtain ⟨hcheck, hle, hrest⟩ := readBounds_ok hR hbounds
    have hnonneg : 0 ≤ mi.toInt := by
      by_contra hneg
      have hlt : mi < 0 := Int64.lt_iff_toInt_lt.mpr (by simpa using hneg)
      simp [hlt] at hcheck
    obtain ⟨v, hv, rfl⟩ := closeRange_ok h
    unfold srangeDval at hv
    split at hv
    · next s' =>
      simp only at hv
      split_ifs at hv with hrange
      simp only [Except.ok.injEq, Prod.mk.injEq] at hv
      obtain ⟨rfl, -⟩ := hv
      simp only [not_or, not_lt] at hrange
      have hlen : s'.dropLast.length ≤ s'.length := by simp
      rw [List.length_cons] at hrest
      apply Accepted.str k hk
      · rw [Text.length_raw]
        omega
      · rw [Text.length_raw]
        omega
      · rw [Text.length_raw]
        omega
    · split_ifs at hv with hnil hzero halloc
      · cases hv
        exact .strNil k hk _ _ hnil
      · cases hv
        exact .str k hk _ _ [] (by simp [hzero]) (Nat.zero_le _) (Nat.zero_le _)
      · cases hv
        exact .fill k hk _ _ (toNat_le_toNat hle)

theorem clampZero_mem (h : mi ≤ ma) : mi ≤ clampZero mi ma ∧ clampZero mi ma ≤ ma := by
  unfold clampZero
  rw [Int64.le_iff_toInt_le] at h
  simp only [Int64.lt_iff_toInt_lt, Int64.le_iff_toInt_le, Int64.toInt_zero]
  split_ifs with hneg hpos
  · exact ⟨h, le_rfl⟩
  · exact ⟨le_rfl, h⟩
  · simp only [Int64.toInt_zero]
    omega

theorem accepted_irange (hR : R.Lawful) (h : irangeInit R u nillable s = .ok i) :
    Accepted E nillable n .intRange i := by
  unfold irangeInit at h
  split at h
  · cases h
  · next mi ma rest hbounds =>
    obtain ⟨-, hle, -⟩ := readBounds_ok hR hbounds
    obtain ⟨v, hv, rfl⟩ := closeRange_ok h
    unfold irangeDval at hv
    split at hv
    · simp only at hv
      split_ifs at hv with _ hrange
      simp only [Except.ok.injEq, Prod.mk.injEq] at hv
      obtain ⟨rfl, -⟩ := hv
      simp only [not_or, Int64.not_lt] at hrange
      exact .int _ _ _ hrange.1 hrange.2
    · split_ifs at hv with hnil
      · cases hv
        exact .intNil _ _ hnil
      · cases hv
        obtain ⟨hmi, hma⟩ := clampZero_mem hle
        exact .int _ _ _ hmi hma

theorem accepted_builtin {re : Text} {what : String} (h : builtinInit E u re what s = .ok i) :
    Accepted E nillable n .rematch i := by
  unfold builtinInit at h
  split_ifs at h with htest
  cases h
  exact .re re _ htest

theorem accepted_infoInit (hR : R.Lawful) (hn : word.length ≤ n)
    (h : infoInit R E u nillable word = .ok (spec, i)) : Accepted E nillable n spec i := by
  unfold infoInit at h
  split at h
  · cases h
  · next start kind hfind =>
    split at h
    · next s hdrop =>
      have hlen : s.length ≤ n := by
        have hcons := congrArg List.length hdrop
        rw [List.length_drop, List.length_cons] at hcons
        omega
      cases hinit : kind.init R E u nillable s with
      | error e =>
        rw [hinit] at h
        cases h
      | ok j =>
        rw [hinit] at h
        cases h
        cases kind with
        | bool =>
          simp only [InfoKind.init, boolInit] at hinit
          split_ifs at hinit
          · cases hinit
            exact .bool true
          · cases hinit
            exact .bool false
        | str => exact accepted_srange hR .str (.inl rfl) hlen hinit
        | utf8 => exact accepted_srange hR .utf8 (.inr rfl) hlen hinit
        | int => exact accepted_irange hR hinit
        | float => exact .float _
        | email => exact accepted_builtin hinit
        | url => exact accepted_builtin hinit
        | tel => exact accepted_builtin hinit
    · cases h

theorem accepted_reInit
    (h : reInit R E u nillable word = .ok (spec, i)) : Accepted E nillable n spec i := by
  unfold reInit at h
  split at h
  · cases h
  · next pattern d hsplit =>
    simp only at h
    by_cases hends : endsPattern pattern = true
    · cases herr : R.regexErr pattern with
      | some e => simp [hends, herr] at h
      | none =>
        simp only [hends, herr, Bool.not_true, Bool.false_eq_true, if_false] at h
        split_ifs at h with htest
        cases h
        have hre : ∀ r, patternDval nillable d = .str r → Accepted E nillable n .rematch
            (.re pattern (patternDval nillable d)) := by
          intro r hr
          rw [hr] at htest ⊢
          exact .re pattern r (by simpa [Val.isStr, Val.tp, Val.data] using htest)
        cases d with
        | some d => exact hre _ rfl
        | none =>
          cases nillable with
          | true => exact .reNil pattern rfl
          | false => exact hre [] rfl
    · simp [hends] at h

end Accepted

/-- The declarations of a field, with the conditions as they are read here. -/
def Env.reads (D : Env) (R : Reader) (E : ThingsDB.Env) (u : Subject) : Env :=
  { D with
    pattern := fun word nillable => reInit R E u nillable word
    range := fun word nillable => infoInit R E u nillable word }

end ThingsDB.Types
