import ThingsDB.Types.Direct

/-!
# Texts for declarations

A declaration is written as its flags and a body. The body is read back, if the word in it
cannot be taken for something else.
-/

namespace ThingsDB.Types

open List

variable {sc : Scan} {s t b : Text} {flags fl : List Flag} {word : Text}

/-- `types__spec_flags_pos` -/
def isFlagChar (c : Char) : Bool :=
  c = '^' || c = '&' || c = '-' || c = '+' || c = '*' || c = '?' || c = '!'

theorem isFlagChar_eq (c : Char) : isFlagChar c = (Flag.ofChar c).isSome := by
  unfold Flag.ofChar
  split
  all_goals first | rfl | skip
  simp_all [isFlagChar]

def flagChars (s : Text) : Text := s.takeWhile isFlagChar

def optNil (nillable : Bool) : Text := if nillable then ['?'] else []

def Scan.body (sc : Scan) : Text :=
  let inner := sc.word ++ optNil sc.nestedNillable
  match sc.outer with
  | .plain => sc.word ++ optNil sc.nillable
  | .arr => '[' :: inner ++ [']'] ++ optNil sc.nillable
  | .set => '{' :: inner ++ ['}'] ++ optNil sc.nillable
  | .restricted => thingOpen ++ inner ++ ['>'] ++ optNil sc.nillable

theorem readFlags_flagChars (h : readFlags flags s = .ok (fl, t))
    (hb : ∃ c, b.head? = some c ∧ isFlagChar c = false) :
    readFlags flags (flagChars s ++ b) = .ok (fl, b) := by
  obtain ⟨c, hc, hflag⟩ := hb
  have hbase : ∀ flags, readFlags flags b = .ok (flags, b) := by
    intro flags
    cases b with
    | nil => cases hc
    | cons d b =>
      cases hc
      have hnone : Flag.ofChar c = none := by simpa [isFlagChar_eq] using hflag
      rw [readFlags, hnone]
  induction s generalizing flags with
  | nil => cases h
  | cons d s ih =>
    rw [readFlags] at h
    cases hd : Flag.ofChar d with
    | none =>
      rw [hd] at h
      cases h
      have hnot : isFlagChar d = false := by simp [isFlagChar_eq, hd]
      simp [flagChars, hnot, hbase]
    | some f =>
      rw [hd] at h
      simp only at h
      split_ifs at h with hmem
      have hyes : isFlagChar d = true := by simp [isFlagChar_eq, hd]
      rw [flagChars, takeWhile_cons_of_pos hyes, cons_append, readFlags, hd]
      simp only
      rw [if_neg hmem]
      exact ih h

/-- A word which is not taken for something else. -/
structure GoodWord (word : Text) : Prop where
  head : ∃ c, word.head? = some c ∧ isFlagChar c = false ∧ c ≠ '[' ∧ c ≠ '{' ∧ c ≠ '/'
  last : ∃ c, word.getLast? = some c ∧ c ≠ '?' ∧ c ≠ '>'
  thing : ¬thingOpen <+: word

namespace GoodWord

theorem ne_nil (h : GoodWord word) : word ≠ [] := by
  obtain ⟨c, hc, -⟩ := h.head
  rintro rfl
  cases hc

theorem splitNillable (h : GoodWord word) (nillable : Bool) :
    Types.splitNillable (word ++ optNil nillable) = some (nillable, word) := by
  obtain ⟨c, hc, hnil, -⟩ := h.last
  cases nillable with
  | true => simp [Types.splitNillable, optNil, h.ne_nil]
  | false => simp [Types.splitNillable, optNil, hc, hnil]

theorem scanNested (h : GoodWord word) (s : Text) (outer : Outer) (nillable nested : Bool) :
    Types.scanNested s ⟨flags, nillable, outer, false, word ++ optNil nested⟩ =
      .ok ⟨flags, nillable, outer, nested, word⟩ := by
  obtain ⟨c, hc, -, harr, hset, hre⟩ := h.head
  obtain ⟨d, hd, -, hrange⟩ := h.last
  have hne : word ++ optNil nested ≠ [] := by simp [h.ne_nil]
  rw [Types.scanNested, if_neg hne]
  simp [h.splitNillable nested, hc, hd, harr, hset, hre, hrange]

end GoodWord

theorem splitNillable_concat (t : Text) {c : Char} (hc : c ≠ '?') (nillable : Bool) :
    splitNillable (t ++ [c] ++ optNil nillable) = some (nillable, t ++ [c]) := by
  cases nillable with
  | true => simp [splitNillable, optNil]
  | false => simp [splitNillable, optNil, hc]

theorem scanNested_flags {sc sc' : Scan} (h : scanNested s sc = .ok sc') :
    sc'.flags = sc.flags := by
  unfold scanNested at h
  split_ifs at h
  · cases h
    rfl
  · split at h
    · cases h
    · split_ifs at h
      cases h
      rfl

theorem scanNested_outer {sc sc' : Scan} (h : scanNested s sc = .ok sc') :
    sc'.outer = sc.outer := by
  unfold scanNested at h
  split_ifs at h
  · cases h
    rfl
  · split at h
    · cases h
    · split_ifs at h
      cases h
      rfl

/-- There is one `?` only without brackets. -/
theorem scan_plain (h : scan s = .ok sc) (hplain : sc.outer = .plain) :
    sc.nestedNillable = false := by
  unfold scan at h
  split_ifs at h
  split at h
  · cases h
  · split_ifs at h
    split at h
    · cases h
    · split at h
      · cases h
      · cases h
        rfl
      · next hne _ => exact absurd ((scanNested_outer h).symm.trans hplain) (by simpa using hne)

theorem scan_flags (h : scan s = .ok sc) : ∃ fl t, readFlags [] s = .ok (fl, t) ∧
    ¬(.minDeep ∈ fl ∧ .maxDeep ∈ fl) ∧ sc.flags = withDeep fl := by
  unfold scan at h
  split_ifs at h
  cases hread : readFlags [] s with
  | error e => rw [hread] at h; cases h
  | ok r =>
    obtain ⟨fl, t⟩ := r
    rw [hread] at h
    simp only at h
    split_ifs at h with hconflict
    refine ⟨fl, t, rfl, hconflict, ?_⟩
    split at h
    · cases h
    · split at h
      · cases h
      · cases h
        rfl
      · exact scanNested_flags h

theorem head_body (hword : GoodWord sc.word) :
    ∃ c, sc.body.head? = some c ∧ isFlagChar c = false := by
  obtain ⟨c, hc, hflag, -⟩ := hword.head
  unfold Scan.body
  cases sc.outer with
  | plain => exact ⟨c, by simp [hc], hflag⟩
  | arr => exact ⟨'[', by simp, rfl⟩
  | set => exact ⟨'{', by simp, rfl⟩
  | restricted => exact ⟨'t', by simp [thingOpen], rfl⟩

section Outer

variable (w : Text)

theorem splitOuter_arr : splitOuter ('[' :: w ++ [']']) = some (.arr, w) := by
  have hlast : ('[' :: w ++ [']']).getLast? = some ']' := getLast?_concat
  have hinner : ('[' :: w ++ [']']).tail.dropLast = w := dropLast_concat
  have hhead : ('[' :: w ++ [']']).head? = some '[' := rfl
  rw [splitOuter, if_pos hhead, if_pos hlast, hinner]

theorem splitOuter_set : splitOuter ('{' :: w ++ ['}']) = some (.set, w) := by
  have hlast : ('{' :: w ++ ['}']).getLast? = some '}' := getLast?_concat
  have hinner : ('{' :: w ++ ['}']).tail.dropLast = w := dropLast_concat
  have harr : ¬('{' :: w ++ ['}']).head? = some '[' := by simp
  have hhead : ('{' :: w ++ ['}']).head? = some '{' := rfl
  rw [splitOuter, if_neg harr, if_pos hhead, if_pos hlast, hinner]

theorem splitOuter_restricted : splitOuter (thingOpen ++ w ++ ['>']) = some (.restricted, w) := by
  have hlast : (thingOpen ++ w ++ ['>']).getLast? = some '>' := getLast?_concat
  have hinner : ((thingOpen ++ w ++ ['>']).drop 6).dropLast = w := by
    rw [append_assoc]
    exact dropLast_concat
  have harr : ¬(thingOpen ++ w ++ ['>']).head? = some '[' := by simp [thingOpen]
  have hset : ¬(thingOpen ++ w ++ ['>']).head? = some '{' := by simp [thingOpen]
  have hthing : 7 ≤ (thingOpen ++ w ++ ['>']).length ∧ thingOpen <+: thingOpen ++ w ++ ['>'] := by
    constructor
    · simp [thingOpen]
    · exact ⟨w ++ ['>'], by simp⟩
  rw [splitOuter, if_neg harr, if_neg hset, if_pos hthing, if_pos hlast, hinner]

end Outer

theorem scan_body (hword : GoodWord sc.word)
    (hplain : sc.outer = .plain → sc.nestedNillable = false)
    {s : Text} {sc' : Scan} (hs : scan s = .ok sc') (hflags : sc'.flags = sc.flags) :
    scan (flagChars s ++ sc.body) = .ok sc := by
  obtain ⟨fl, t, hread, hconflict, hfl⟩ := scan_flags hs
  have hbody := readFlags_flagChars hread (head_body hword)
  obtain ⟨c, hc, -⟩ := head_body hword
  have hne : flagChars s ++ sc.body ≠ [] := by
    intro heq
    rw [(append_eq_nil_iff.mp heq).2] at hc
    cases hc
  generalize flagChars s ++ sc.body = text at hbody hne
  obtain ⟨flags, nillable, outer, nested, word⟩ := sc
  obtain rfl : flags = withDeep fl := hflags.symm.trans hfl
  unfold scan
  rw [if_neg hne, hbody]
  simp only
  rw [if_neg hconflict]
  obtain ⟨d, hd, -, harr, hset, -⟩ := hword.head
  cases outer with
  | plain =>
    obtain rfl : nested = false := hplain rfl
    have hsplit : splitOuter word = some (.plain, word) := by
      simp only at hd
      simp [splitOuter, hd, harr, hset, hword.thing]
    simp only [Scan.body, hword.splitNillable nillable, hsplit]
  | arr =>
    simp only [Scan.body, splitNillable_concat _ (show (']' : Char) ≠ '?' by decide) nillable,
      splitOuter_arr]
    exact hword.scanNested text .arr nillable nested
  | set =>
    simp only [Scan.body, splitNillable_concat _ (show ('}' : Char) ≠ '?' by decide) nillable,
      splitOuter_set]
    exact hword.scanNested text .set nillable nested
  | restricted =>
    simp only [Scan.body, splitNillable_concat _ (show ('>' : Char) ≠ '?' by decide) nillable,
      splitOuter_restricted]
    exact hword.scanNested text .restricted nillable nested

end ThingsDB.Types
