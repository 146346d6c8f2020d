import ThingsDB.Lists.Ops

/-!
# Splice

What `do__f_splice` leaves in a list. The new values replace the deleted elements. When one
of them fails the tail is moved in the wrong direction, so that the list is left as it was
only if the same objects come back into the place of the tail. An equal value is not enough: an
object which comes into another slot has one reference for both, and one which was appended
before the failure is dropped.
-/

namespace ThingsDB.Lists

open Util List

/-- The start index and the number of elements to delete, for the integers of a call. -/
def spliceBounds (n : ℕ) (i c : ℤ) : ℕ × ℕ :=
  let j := if i < 0 then i + n else i
  let start := if j < 0 then 0 else (min j n).toNat
  (start, (max 0 (min (if j < 0 then c + j else c) (n - start))).toNat)

/-- A number to delete which is out of the range after a negative start is added. -/
def Underflow (n : ℕ) (i c : ℤ) : Prop := i + n < 0 ∧ c + (i + n) < Int64.minValue.toInt

instance (n : ℕ) (i c : ℤ) : Decidable (Underflow n i c) := inferInstanceAs (Decidable (_ ∧ _))

theorem spliceArgs_of_underflow {n : ℕ} {i c : ℤ} (h : Underflow n i c) :
    spliceArgs n i c = none := by
  have hi : i < 0 := by
    have := h.1
    omega
  unfold spliceArgs
  simp only [hi, if_true]
  exact if_pos h

theorem spliceArgs_of_not_underflow {n : ℕ} {i c : ℤ} (h : ¬Underflow n i c) :
    spliceArgs n i c = some (spliceBounds n i c) := by
  obtain ⟨j, hj⟩ : ∃ j, (if i < 0 then i + (n : ℤ) else i) = j := ⟨_, rfl⟩
  have hfits : ¬(j < 0 ∧ c + j < Int64.minValue.toInt) := by
    rintro ⟨h1, h2⟩
    have hij : j = i + n := by
      rw [← hj]
      split_ifs at hj ⊢ <;> omega
    rw [hij] at h1 h2
    exact h ⟨h1, h2⟩
  unfold spliceArgs spliceBounds
  simp only [hj, if_neg hfits]
  by_cases hneg : j < 0
  · simp only [hneg, if_true, Option.some.injEq, Prod.mk.injEq, true_and]
    split_ifs <;> omega
  · simp only [hneg, if_false, Option.some.injEq, Prod.mk.injEq]
    split_ifs <;> omega

section Tail

variable {α : Type} [Inhabited α] (vec new : List α) (i c n : ℕ)

/-- What is in a slot of the tail after a failure, where `new` was appended before it, out of `n`
values. With fewer values than deleted elements the tail was moved to the left twice, and with
more to the right, after some of it was overwritten. -/
def tailSlot (p : ℕ) : α :=
  if n ≤ c then
    if p + 2 * (c - n) < vec.length then vec.getD (p + 2 * (c - n)) default
    else if p + (c - n) < vec.length then vec.getD (p + (c - n)) default
    else vec.getD p default
  else
    let q := if i + n ≤ p then p - (n - c) else p
    if q < i + new.length then new.getD (q - i) default
    else if i + n ≤ q then vec.getD (q - (n - c)) default
    else vec.getD q default

/-- The tail has its elements in their places again. -/
def TailRestored : Prop :=
  ∀ p, i + c ≤ p → p < vec.length → tailSlot vec new i c n p = vec.getD p default

variable {vec new i c n}

/-- The slots after the tail was moved and some values were appended. -/
theorem written_apply {q : ℕ} (hq : i ≤ q) :
    (((Slots.ofList vec).memmove (i + n) (i + c) (vec.length - i - c)).write i new) q =
      if q < i + new.length then new.getD (q - i) default
      else if i + n ≤ q ∧ q < i + n + (vec.length - i - c) then
        vec.getD (i + c + (q - (i + n))) default
      else vec.getD q default := by
  rw [Slots.write, if_pos hq]
  by_cases hlt : q < i + new.length
  · have hget : q - i < new.length := by omega
    simp [hlt, getD_eq_getElem?_getD, hget]
  · have hget : new[q - i]? = none := getElem?_eq_none (by omega)
    rw [if_neg hlt, getD_eq_getElem?_getD, hget]
    rfl

theorem moved_apply {p : ℕ} (hic : i + c ≤ vec.length) (hnew : new.length ≤ n) (hp : i + c ≤ p)
    (hlt : p < vec.length) :
    ((((Slots.ofList vec).memmove (i + n) (i + c) (vec.length - i - c)).write i new).memmove (i + n)
      (i + c) (vec.length - i - c)) p = tailSlot vec new i c n p := by
  rw [Slots.memmove, tailSlot]
  by_cases hnc : n ≤ c
  · rw [if_pos hnc]
    by_cases hmoved : p + (c - n) < vec.length
    · -- moved twice, or once from behind what was moved before
      rw [if_pos (by omega), written_apply (by omega), if_neg (by omega)]
      by_cases htwice : p + 2 * (c - n) < vec.length
      · rw [if_pos (by omega), if_pos htwice]
        congr 1
        omega
      · rw [if_neg (by omega), if_neg htwice, if_pos hmoved]
        congr 1
        omega
    · rw [if_neg (by omega), written_apply (by omega), if_neg (by omega), if_neg (by omega),
        if_neg (by omega), if_neg hmoved]
  · rw [if_neg hnc]
    by_cases hmoved : i + n ≤ p
    · have hsrc : i + c + (p - (i + n)) = p - (n - c) := by omega
      rw [if_pos (by omega), hsrc, written_apply (by omega)]
      simp only [if_pos hmoved]
      by_cases hwritten : p - (n - c) < i + new.length
      · rw [if_pos hwritten, if_pos hwritten]
      · rw [if_neg hwritten, if_neg hwritten]
        by_cases hq : i + n ≤ p - (n - c)
        · rw [if_pos (by omega), if_pos hq]
          congr 1
          omega
        · rw [if_neg (by omega), if_neg hq]
    · rw [if_neg (by omega), written_apply (by omega)]
      simp only [if_neg hmoved]
      rw [if_neg (c := i + n ≤ p ∧ _) (by omega)]

theorem spliceFail2_eq_iff (hic : i + c ≤ vec.length) (hnew : new.length ≤ n) :
    spliceFail2 vec new i c n = vec ↔ TailRestored vec new i c n := by
  obtain ⟨data, hdata⟩ : ∃ data, (((Slots.ofList vec).memmove (i + n) (i + c)
      (vec.length - i - c)).write i new).memmove (i + n) (i + c) (vec.length - i - c) = data :=
    ⟨_, rfl⟩
  have hbefore : ∀ p, p < i → data p = vec.getD p default := by
    intro p hp
    have hlt : ¬ i + n ≤ p := by omega
    have hip : ¬ i ≤ p := by omega
    simp [← hdata, Slots.write, Slots.memmove, hip, hlt, Slots.ofList]
  have hrestored := Slots.map_read_write_eq_iff id hic hbefore
  simp only [map_id, id_eq] at hrestored
  dsimp only [spliceFail2]
  rw [hdata, hrestored]
  refine forall₃_congr fun p hp hlt => ?_
  rw [← hdata, moved_apply hic hnew hp hlt]

variable {β : Type} [Inhabited β]

/-- What is in the slots of the tail are elements of the list or values which were appended. -/
theorem tailSlot_map (f : α → β) (hnew : new.length ≤ n) {p : ℕ} (hp : i + c ≤ p)
    (hlt : p < vec.length) :
    tailSlot (vec.map f) (new.map f) i c n p = f (tailSlot vec new i c n p) := by
  have hget : ∀ (l : List α) q, q < l.length → (l.map f).getD q default = f (l.getD q default) := by
    intro l q hq
    simp [hq]
  unfold tailSlot
  simp only [length_map]
  by_cases hnc : n ≤ c
  · simp only [if_pos hnc]
    split_ifs
    all_goals exact hget vec _ (by omega)
  · simp only [if_neg hnc]
    split_ifs
    all_goals first | exact hget new _ (by omega) | exact hget vec _ (by omega)

theorem TailRestored.map (h : TailRestored vec new i c n) (f : α → β) (hnew : new.length ≤ n) :
    TailRestored (vec.map f) (new.map f) i c n := by
  intro p hp hlt
  rw [length_map] at hlt
  rw [tailSlot_map f hnew hp hlt, h p hp hlt]
  simp [hlt]

end Tail

section Append

variable (E : Env) (kind : ℕ → Kind) (spec : Spec)

/-- The elements which are there already make no difference. -/
theorem appendLoop_append (args : List Arg) (flags : ArrFlags) (pre vec : List Val) :
    appendLoop E kind spec args ⟨flags, pre ++ vec⟩ =
      ((appendLoop E kind spec args ⟨flags, vec⟩).1,
        ⟨(appendLoop E kind spec args ⟨flags, vec⟩).2.flags,
          pre ++ (appendLoop E kind spec args ⟨flags, vec⟩).2.vec⟩) := by
  induction args generalizing flags vec with
  | nil => rfl
  | cons arg args ih =>
    cases arg with
    | error e => rfl
    | ok v =>
      simp only [appendLoop, varrAppend]
      cases prepare E kind spec flags v with
      | error e => rfl
      | ok r =>
        simp only [Except.map, append_assoc]
        exact ih r.1 (vec ++ [r.2])

theorem length_appendLoop (args : List Arg) (l : Varr) :
    (appendLoop E kind spec args l).2.vec.length ≤ l.vec.length + args.length ∧
    ((appendLoop E kind spec args l).1 = none →
      (appendLoop E kind spec args l).2.vec.length = l.vec.length + args.length) := by
  induction args generalizing l with
  | nil => simp [appendLoop]
  | cons arg args ih =>
    cases arg with
    | error e => simp [appendLoop]
    | ok v =>
      simp only [appendLoop, varrAppend]
      cases prepare E kind spec l.flags v with
      | error e => simp [Except.map]
      | ok r =>
        obtain ⟨hle, heq⟩ := ih ⟨r.1, l.vec ++ [r.2]⟩
        simp only [Except.map]
        simp only [length_append, length_cons, length_nil] at hle heq ⊢
        refine ⟨by omega, fun h => ?_⟩
        have := heq h
        omega

/-- The new values as they are put in a list with these flags, up to the first one which
fails. -/
def newVals (flags : ArrFlags) (args : List Arg) : List Val :=
  (appendLoop E kind spec args ⟨flags, []⟩).2.vec

def newErr (flags : ArrFlags) (args : List Arg) : Option Ex :=
  (appendLoop E kind spec args ⟨flags, []⟩).1

end Append

section Splice

variable (E : Env) (kind : ℕ → Kind) (spec : Spec)

/-- The objects of a call, by their addresses: what they hold, those in the list, and those which
are appended. -/
structure Objs where
  heap : ℕ → Val
  old : List ℕ
  new : List ℕ

structure Objs.Of (x : Objs) (l : Varr) (args : List Arg) : Prop where
  old : l.vec = x.old.map x.heap
  new : newVals E kind spec l.flags args = x.new.map x.heap

/-- What `splice` is for: the new values in the place of the deleted elements, which are
returned, or the list as it was, with the objects which were in it. -/
def SpliceExact (x : Objs) (l : Varr) (i c : ℕ) (args : List Arg) (o : Outcome) : Prop :=
  match newErr E kind spec l.flags args with
  | none =>
    o.varr.vec = l.vec.take i ++ newVals E kind spec l.flags args ++ l.vec.drop (i + c) ∧
      o.rval = .ok (.arr ⟨false, false, false⟩ ((l.vec.drop i).take c))
  | some e =>
    o.varr.vec = l.vec ∧ spliceFail2 x.old x.new i c args.length = x.old ∧ o.rval = .error e

theorem spliceBounds_le (n : ℕ) (i c : ℤ) :
    (spliceBounds n i c).1 + (spliceBounds n i c).2 ≤ n := by
  unfold spliceBounds
  dsimp only
  split_ifs <;> omega

theorem length_newVals (flags : ArrFlags) (args : List Arg) :
    (newVals E kind spec flags args).length ≤ args.length := by
  have hlen := (length_appendLoop E kind spec args ⟨flags, []⟩).1
  rwa [length_nil, Nat.zero_add] at hlen

/-- The loop of `splice` appends the new values to what is before the deleted elements. -/
theorem appendLoop_take (l : Varr) {i : ℕ} (hi : i ≤ l.vec.length) (args : List Arg) :
    (appendLoop E kind spec args { l with vec := l.vec.take i }).1 =
        newErr E kind spec l.flags args ∧
      (appendLoop E kind spec args { l with vec := l.vec.take i }).2.vec.drop i =
        newVals E kind spec l.flags args := by
  have hloop := appendLoop_append E kind spec args l.flags (l.vec.take i) []
  have htake : (l.vec.take i).length = i := by simp; omega
  rw [append_nil] at hloop
  rw [hloop]
  refine ⟨rfl, ?_⟩
  rw [drop_append, htake, drop_eq_nil_of_le (by omega)]
  simp [newVals]

variable {E kind spec} in
theorem Objs.Of.restored {x : Objs} {l : Varr} {args : List Arg} (h : x.Of E kind spec l args)
    {i c : ℕ} (hic : i + c ≤ l.vec.length) :
    spliceFail2 x.old x.new i c args.length = x.old ↔
      TailRestored x.old x.new i c args.length := by
  have hnew := length_newVals E kind spec l.flags args
  rw [h.new, length_map] at hnew
  rw [h.old, length_map] at hic
  exact spliceFail2_eq_iff hic hnew

variable {E kind spec} in
/-- With the same objects there are the same values. -/
theorem Objs.Of.vec_eq {x : Objs} {l : Varr} {args : List Arg} (h : x.Of E kind spec l args)
    {i c : ℕ} (hic : i + c ≤ l.vec.length)
    (hold : spliceFail2 x.old x.new i c args.length = x.old) :
    spliceFail2 l.vec (newVals E kind spec l.flags args) i c args.length = l.vec := by
  have hlen := length_newVals E kind spec l.flags args
  have hrest := (h.restored hic).mp hold
  rw [spliceFail2_eq_iff hic hlen]
  rw [h.new, length_map] at hlen
  rw [h.new, h.old]
  exact hrest.map x.heap hlen

variable {E kind spec} in
theorem spliceFrom_exact_iff {x : Objs} {l : Varr} {args : List Arg} (h : x.Of E kind spec l args)
    {i c : ℕ} (hic : i + c ≤ l.vec.length) :
    SpliceExact E kind spec x l i c args (spliceFrom E kind spec l i c args) ↔
      (newErr E kind spec l.flags args ≠ none → TailRestored x.old x.new i c args.length) := by
  have hlen := length_appendLoop E kind spec args ⟨l.flags, []⟩
  obtain ⟨herr, hdrop⟩ := appendLoop_take E kind spec l (Nat.le_of_add_right_le hic) args
  have hvec := h.vec_eq hic
  unfold SpliceExact spliceFrom
  cases happ : appendLoop E kind spec args { l with vec := l.vec.take i } with
  | mk err l' =>
    rw [happ] at herr hdrop
    rw [← herr]
    cases err with
    | none =>
      have hcount : (newVals E kind spec l.flags args).length = args.length := by
        rw [length_nil, Nat.zero_add] at hlen
        exact hlen.2 herr.symm
      have hread := Slots.read_replace (newVals E kind spec l.flags args) hic
      rw [hcount] at hread
      simp only [hdrop, hread, true_and, ne_eq, not_true_eq_false, false_imp_iff]
    | some e =>
      simp only [hdrop, ne_eq, reduceCtorEq, not_false_eq_true, true_imp_iff, and_true,
        ← h.restored hic, and_iff_right_iff_imp]
      exact hvec

/-- The list is as it should be unless a number to delete is out of the range, or a new value
fails and the tail does not come back. -/
theorem splice_exact_iff (x : Objs) (l : Varr) (i c : Int64) (args : List Arg)
    (h : x.Of E kind spec l args) :
    (∃ o, splice E kind spec l (.ok (.int i) :: .ok (.int c) :: args) = some o ∧
      SpliceExact E kind spec x l (spliceBounds l.vec.length i.toInt c.toInt).1
        (spliceBounds l.vec.length i.toInt c.toInt).2 args o) ↔
    ¬Underflow l.vec.length i.toInt c.toInt ∧
      (newErr E kind spec l.flags args ≠ none →
        TailRestored x.old x.new (spliceBounds l.vec.length i.toInt c.toInt).1
          (spliceBounds l.vec.length i.toInt c.toInt).2 args.length) := by
  by_cases hu : Underflow l.vec.length i.toInt c.toInt
  · simp [splice, argInt, spliceArgs_of_underflow hu, hu]
  · rw [← spliceFrom_exact_iff h (spliceBounds_le _ _ _)]
    simp [splice, argInt, spliceArgs_of_not_underflow hu, hu]

end Splice

/-- After a failure `[1, 2, 3].splice(0, 0, ..)` is `[1, 1, 1]`; and with the smallest integers
the number to delete is out of the range. -/
theorem splice_fails_changed :
    (splice default (fun _ => .instance 0) .any ⟨⟨false, false, false⟩, [.int 1, .int 2, .int 3]⟩
      [.ok (.int 0), .ok (.int 0), .error ⟨.valueError, ""⟩]).map (·.varr.vec) =
        some [.int 1, .int 1, .int 1] ∧
    splice default (fun _ => .instance 0) .any ⟨⟨false, false, false⟩, []⟩
      [.ok (.int Int64.minValue), .ok (.int (-1))] = none :=
  ⟨rfl, rfl⟩

/-- A value which fails in the place of a deleted element. -/
theorem splice_exact_one :
    ∃ o, splice default (fun _ => .instance 0) .any ⟨⟨false, false, false⟩, [.int 1, .int 2]⟩
        [.ok (.int 0), .ok (.int 1), .error ⟨.valueError, ""⟩] = some o ∧
      SpliceExact default (fun _ => .instance 0) .any
        ⟨fun a => if a = 0 then .int 1 else .int 2, [0, 1], []⟩
        ⟨⟨false, false, false⟩, [.int 1, .int 2]⟩ 0 1 [.error ⟨.valueError, ""⟩] o := by
  refine (splice_exact_iff _ _ _ _ _ 0 1 _ ⟨rfl, rfl⟩).mpr ⟨by decide, fun _ => ?_⟩
  unfold TailRestored
  decide

end ThingsDB.Lists
