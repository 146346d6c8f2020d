import ThingsDB.Lists.Index
import ThingsDB.Lists.Replay
import ThingsDB.Lists.Splice

/-!
# The same list on all nodes

An assignment with an operator or with a slice puts values in a list as they are, and
a copy checks them; a list which is assigned to a slice of itself is copied after elements were
dropped; and a call of `splice` which fails may leave a changed list behind, for which there is no
task. Everything else is the same on all nodes, as long as no value is sent which has a set in an
array.
-/

namespace ThingsDB.Lists

open Util

section Defs

variable (E : Env) (kind : ℕ → Kind) (spec : Spec) (x : Objs) (l : Varr)

def Objs.OfOp : Op → Prop
  | .splice (_ :: _ :: args) => x.Of E kind spec l args
  | _ => True

/-- A call of `splice` which fails leaves the objects in the list which were in it. -/
def Intact : Op → Prop
  | .splice (.ok (.int i) :: .ok (.int c) :: args) =>
    ∀ i' c', spliceArgs l.vec.length i.toInt c.toInt = some (i', c') →
      newErr E kind spec l.flags args ≠ none → spliceFail2 x.old x.new i' c' args.length = x.old
  | _ => True

/-- The condition on an operation for its list to be the same on all nodes. A value which
is put in a list without a check must be one the list accepts, and an argument of
`splice` must not fail after the tail was moved, unless the tail comes back. -/
def Safe : Op → Prop
  | .arrayAss idx (some opr) val => ∀ i v, numeric E kind idx l.vec.length = .ok i → val = .ok v →
      ∃ r, Opr.aToB E (fun t => (kind t).type?) (fun _ _ => none) (l.vec.getD i .nil) v opr =
        some r ∧ ∀ y, r = .ok y → Accepts E kind spec y
  | .sliceAss start stop step none rhs => ∀ (i : ℕ) j flags vec,
      readSliceIndices E kind l.vec.length start stop step = .ok ((i : ℤ), j, 1) →
      rhs.arg l = .ok (.arr flags vec) →
        rhs.overlaps i vec.length = false ∧ ∀ v ∈ vec, Accepts E kind spec v
  | .splice (.ok (.int i) :: .ok (.int c) :: args) =>
    ¬Underflow l.vec.length i.toInt c.toInt ∧
      (newErr E kind spec l.flags args ≠ none →
        TailRestored x.old x.new (spliceBounds l.vec.length i.toInt c.toInt).1
          (spliceBounds l.vec.length i.toInt c.toInt).2 args.length)
  | _ => True

/-- The task of an operation gives the same list on a copy of it, and there is one if the list has
changed. -/
def SameOnAll (r : Varr) (op : Op) : Prop :=
  ∃ o, exec E kind spec l op = some o ∧ Replays E kind spec l r o ∧ Intact E kind spec x l op

/-- No value is sent which has a set in an array. -/
def SendsAll (op : Op) : Prop := ∀ o, exec E kind spec l op = some o → ∀ v ∈ o.sent, Sendable v

end Defs

variable {E : Env} {kind : ℕ → Kind} {spec : Spec} {x : Objs} {l r : Varr} {op : Op} {o : Outcome}

theorem sendsAll_iff (ho : exec E kind spec l op = some o) :
    SendsAll E kind spec l op ↔ ∀ v ∈ o.sent, Sendable v := by
  simp [SendsAll, ho]

theorem sameOnAll_iff (ho : exec E kind spec l op = some o) :
    SameOnAll E kind spec x l r op ↔ Replays E kind spec l r o ∧ Intact E kind spec x l op := by
  simp [SameOnAll, ho]

/-- An operation which puts only values in the list which were checked. -/
theorem sameOnAll_checked (ho : exec E kind spec l op = some o)
    (h : Replays E kind spec l r o ↔ ∀ v ∈ o.sent, Sendable v)
    (hintact : Intact E kind spec x l op) (hsafe : Safe E kind spec x l op) :
    SameOnAll E kind spec x l r op ↔ Safe E kind spec x l op ∧ SendsAll E kind spec l op := by
  rw [sameOnAll_iff ho, sendsAll_iff ho, h, and_iff_left hintact, and_iff_right hsafe]

/-- An operation which puts values in the list as they are. -/
theorem sameOnAll_unchecked (ho : exec E kind spec l op = some o)
    (h : Replays E kind spec l r o ↔ ∀ v ∈ o.sent, Sendable v ∧ Accepts E kind spec v)
    (hintact : Intact E kind spec x l op)
    (hsafe : Safe E kind spec x l op ↔ ∀ v ∈ o.sent, Accepts E kind spec v) :
    SameOnAll E kind spec x l r op ↔ Safe E kind spec x l op ∧ SendsAll E kind spec l op := by
  rw [sameOnAll_iff ho, sendsAll_iff ho, h, and_iff_left hintact, hsafe, forall₂_and, and_comm]

theorem sameOnAll_undefined (ho : exec E kind spec l op = none) (hsafe : ¬Safe E kind spec x l op) :
    SameOnAll E kind spec x l r op ↔ Safe E kind spec x l op ∧ SendsAll E kind spec l op := by
  simp [SameOnAll, ho, hsafe]

variable {opr : Option OprToken} {args : List Arg}

section Spliced

variable (hset : spec.base ≠ .set) (hr : Same r.vec l.vec) (hlist : r.flags.tuple = false)

include hset hr hlist

theorem replays_spliceFrom {i c : ℕ} (hic : i + c ≤ l.vec.length)
    (hnone : newErr E kind spec l.flags args = none) :
    Replays E kind spec l r (spliceFrom E kind spec l i c args) ↔
      ∀ v ∈ (spliceFrom E kind spec l i c args).sent, Sendable v := by
  obtain ⟨new, hvec, hnew, hlen⟩ := appendLoop_vec E kind hset args ⟨l.flags, []⟩
  rw [List.nil_append] at hvec
  obtain ⟨herr, hdrop⟩ := appendLoop_take E kind spec l (Nat.le_of_add_right_le hic) args
  have hl := hlen hnone
  have hread := Slots.read_replace new hic
  rw [hl] at hread
  cases ha : appendLoop E kind spec args { l with vec := l.vec.take i } with
  | mk err l' =>
    rw [ha] at herr hdrop
    obtain rfl : err = none := herr.trans hnone
    replace hdrop : l'.vec.drop i = new := hdrop.trans hvec
    simp only [spliceFrom, ha, hdrop, hread]
    by_cases h0 : c = 0 ∧ args.length = 0
    · obtain ⟨rfl, hargs⟩ := h0
      obtain rfl := List.eq_nil_of_length_eq_zero (hl.trans hargs)
      exact replays_none (by simp [hargs]) (by simp)
    · exact replays_checked hset hr hlist hic (if_neg h0) rfl fun v hv => (hnew v hv).2

omit hset hr hlist in
theorem spliceFrom_failed {i c : ℕ} (hic : i + c ≤ l.vec.length) {e : Ex}
    (herr : newErr E kind spec l.flags args = some e) :
    (spliceFrom E kind spec l i c args).task = none ∧
      (spliceFrom E kind spec l i c args).varr.vec =
        spliceFail2 l.vec (newVals E kind spec l.flags args) i c args.length := by
  obtain ⟨herr', hdrop⟩ := appendLoop_take E kind spec l (Nat.le_of_add_right_le hic) args
  cases ha : appendLoop E kind spec args { l with vec := l.vec.take i } with
  | mk err l' =>
    rw [ha] at herr' hdrop
    obtain rfl : err = some e := herr'.trans herr
    simp only [spliceFrom, ha, hdrop, true_and]

omit hset hr hlist in
theorem splice_not_int (h : ¬∃ i c rest, args = .ok (.int i) :: .ok (.int c) :: rest) :
    ∃ e, splice E kind spec l args = some (fail l e) := by
  match args with
  | [] | [_] => exact ⟨_, rfl⟩
  | a₁ :: a₂ :: rest =>
    simp only [splice]
    cases h₁ : argInt E kind "splice" (docSee "data-types/list/splice") 1 a₁ with
    | error e => exact ⟨e, rfl⟩
    | ok i =>
      cases h₂ : argInt E kind "splice" (docSee "data-types/list/splice") 2 a₂ with
      | error e => exact ⟨e, rfl⟩
      | ok c => exact absurd ⟨i, c, rest, by rw [argInt_ok.mp h₁, argInt_ok.mp h₂]⟩ h

theorem sameOnAll_splice {i c : Int64} (hx : x.Of E kind spec l args) :
    SameOnAll E kind spec x l r (.splice (.ok (.int i) :: .ok (.int c) :: args)) ↔
      Safe E kind spec x l (.splice (.ok (.int i) :: .ok (.int c) :: args)) ∧
        SendsAll E kind spec l (.splice (.ok (.int i) :: .ok (.int c) :: args)) := by
  by_cases hu : Underflow l.vec.length i.toInt c.toInt
  · refine sameOnAll_undefined ?_ fun h => h.1 hu
    simp [exec, splice, argInt, spliceArgs_of_underflow hu]
  · have hargs := spliceArgs_of_not_underflow hu
    have hic := spliceBounds_le l.vec.length i.toInt c.toInt
    have ho : exec E kind spec l (.splice (.ok (.int i) :: .ok (.int c) :: args)) =
        some (spliceFrom E kind spec l (spliceBounds l.vec.length i.toInt c.toInt).1
          (spliceBounds l.vec.length i.toInt c.toInt).2 args) := by
      simp [exec, splice, argInt, hargs]
    cases herr : newErr E kind spec l.flags args with
    | none =>
      refine sameOnAll_checked ho (replays_spliceFrom hset hr hlist hic herr) ?_ ?_
      · exact fun _ _ _ hne => absurd herr hne
      · exact ⟨hu, fun hne => absurd herr hne⟩
    | some e =>
      obtain ⟨htask, hvec⟩ := spliceFrom_failed hic herr
      have hne : newErr E kind spec l.flags args ≠ none := by simp [herr]
      rw [sameOnAll_iff ho, sendsAll_iff ho, Outcome.sent, htask]
      -- nothing is sent, and with the objects of the list its values are the same
      simp only [Replays, htask, hvec, Intact, hargs, Safe, hu, hne, Option.some.injEq,
        Option.elim_none, List.not_mem_nil, false_imp_iff, implies_true, and_true, ne_eq,
        not_false_eq_true, true_imp_iff, true_and]
      constructor
      · exact fun h => (hx.restored hic).mp (h.2 _ _ rfl)
      · intro h
        have hold := (hx.restored hic).mpr h
        refine ⟨by rw [hx.vec_eq hic hold]; rfl, ?_⟩
        rintro i' c' hic'
        obtain ⟨rfl, rfl⟩ := Prod.mk.inj hic'
        exact hold

theorem sameOnAll_arrayAss {idx val : Arg} :
    SameOnAll E kind spec x l r (.arrayAss idx opr val) ↔
      Safe E kind spec x l (.arrayAss idx opr val) ∧
        SendsAll E kind spec l (.arrayAss idx opr val) := by
  cases ho : arrayAss E kind spec l idx opr val with
  | none =>
    refine sameOnAll_undefined ho ?_
    unfold arrayAss at ho
    split at ho
    · cases ho
    · cases ho
    · rename_i i v op hi
      intro hsafe
      obtain ⟨y, hy, -⟩ := hsafe i v hi rfl
      rw [hy] at ho
      cases ho
    · cases ho
  | some o =>
    obtain ⟨e, rfl, hfail⟩ | ⟨i, v, hi, rfl, hcase⟩ := arrayAss_cases ho
    · refine sameOnAll_checked ho (replays_fail e) trivial ?_
      cases opr with
      | none => trivial
      | some op => exact fun i v hi hv => ⟨_, hfail op i v rfl hi hv, nofun⟩
    · have hlt := numeric_lt hi
      obtain ⟨rfl, y, hp, rfl⟩ | ⟨op, y, rfl, hy, rfl⟩ := hcase
      · have hacc := (prepare_elem hset hp).2
        obtain ⟨hsent, hiff⟩ := replays_assigned hset hr hlist hlt y.1 y.2
        refine sameOnAll_checked ho (hiff.trans ?_) trivial trivial
        rw [hsent]
        simp only [List.forall_mem_singleton, and_iff_left hacc]
      · obtain ⟨hsent, hiff⟩ := replays_assigned hset hr hlist hlt l.flags y
        refine sameOnAll_unchecked ho hiff trivial ?_
        rw [hsent, List.forall_mem_singleton]
        constructor
        · intro hsafe
          obtain ⟨z, hz, hacc⟩ := hsafe i v hi rfl
          exact hacc y (Option.some.inj (hz.symm.trans hy))
        · rintro hacc i₂ v₂ hi₂ ⟨⟩
          obtain rfl : i = i₂ := Except.ok.inj (hi.symm.trans hi₂)
          exact ⟨_, hy, fun z hz => Except.ok.inj hz ▸ hacc⟩

theorem sameOnAll_sliceAss {start stop step : Option Arg} {rhs : Rhs} :
    SameOnAll E kind spec x l r (.sliceAss start stop step opr rhs) ↔
      Safe E kind spec x l (.sliceAss start stop step opr rhs) ∧
        SendsAll E kind spec l (.sliceAss start stop step opr rhs) := by
  obtain ⟨e, ho, hfail⟩ | ⟨i, c, j, flags, vec, rfl, hs, hic, ha, ho⟩ :=
    sliceAss_cases E kind l start stop step opr rhs
  · refine sameOnAll_checked ho (replays_fail e) trivial ?_
    cases opr with
    | some opr => trivial
    | none => exact fun i j flags vec hs ha => absurd ha (hfail i j flags vec rfl hs)
  · have hsafe : Safe E kind spec x l (.sliceAss start stop step none rhs) ↔
        rhs.overlaps i vec.length = false ∧ ∀ v ∈ vec, Accepts E kind spec v := by
      constructor
      · exact fun h => h i j flags vec hs ha
      · intro h i₂ j₂ flags₂ vec₂ hs₂ ha₂
        obtain ⟨hi, -⟩ : i = i₂ ∧ j = j₂ := by simpa [hs] using hs₂
        obtain ⟨-, rfl⟩ : flags = flags₂ ∧ vec = vec₂ := by simpa [ha] using ha₂
        exact hi ▸ h
    cases hover : rhs.overlaps i vec.length with
    | true =>
      rw [hover, if_pos rfl] at ho
      exact sameOnAll_undefined ho fun h => absurd (hover.symm.trans (hsafe.mp h).1) (by simp)
    | false =>
      rw [hover, if_neg Bool.false_ne_true] at ho
      refine sameOnAll_unchecked ho (replays_splice hset hr hlist hic rfl rfl) trivial ?_
      rw [hsafe, hover, eq_self, true_and]
      rfl

end Spliced

/-- The task of an operation gives the same list on a copy of it, and there is one if the
list has changed, exactly if the operation is safe and its values can be sent. -/
theorem exec_replays_iff (x : Objs) (op : Op) (hset : spec.base ≠ .set)
    (hx : x.OfOp E kind spec l op) (hr : Same r.vec l.vec) (hlist : r.flags.tuple = false) :
    SameOnAll E kind spec x l r op ↔ Safe E kind spec x l op ∧ SendsAll E kind spec l op := by
  cases op with
  | push args => exact sameOnAll_checked rfl (replays_push hset hr hlist args) trivial trivial
  | extend args => exact sameOnAll_checked rfl (replays_extend hset hr hlist args) trivial trivial
  | unshift args => exact sameOnAll_checked rfl (replays_unshift hset hr hlist args) trivial trivial
  | pop args => exact sameOnAll_checked rfl (replays_pop hset hr hlist args) trivial trivial
  | shift args => exact sameOnAll_checked rfl (replays_shift hset hr hlist args) trivial trivial
  | splice args =>
    by_cases hint : ∃ i c rest, args = .ok (.int i) :: .ok (.int c) :: rest
    · obtain ⟨i, c, rest, rfl⟩ := hint
      exact sameOnAll_splice hset hr hlist hx
    · obtain ⟨e, ho⟩ := splice_not_int hint
      refine sameOnAll_checked ho (replays_fail e) ?_ ?_
      · unfold Intact
        split <;> first | trivial | simp_all
      · unfold Safe
        split <;> first | trivial | simp_all
  | arrayAss idx opr val => exact sameOnAll_arrayAss hset hr hlist
  | sliceAss start stop step opr rhs => exact sameOnAll_sliceAss hset hr hlist
  | remove closure limit =>
    exact sameOnAll_checked rfl (replays_remove hr hlist closure limit) trivial trivial
  | fill args => exact sameOnAll_checked rfl (replays_fill hset hr hlist args) trivial trivial
  | clear args => exact sameOnAll_checked rfl (replays_clear hlist args) trivial trivial

def plainEnv : Env where
  typeName _ := "T"
  enumName _ := "E"
  text _ := ""
  fmtFloat _ := ""
  isUtf8 _ := true
  isEmail _ := false
  isUrl _ := false
  isTel _ := false
  regexTest _ _ := false
  nameIsValid _ := true

def uintSpec : Spec := ⟨.uint, false, by simp⟩

def zeroList : Varr := ⟨⟨false, false, false⟩, [.int 0]⟩

/-- With `[0]` in a property which is declared as `[uint]`, subtracting one gives `-1`,
and the task fails on all other nodes. -/
theorem uint_sub_not_replayed : ∃ o, exec plainEnv (fun _ => .object .any) uintSpec zeroList
    (.arrayAss (.ok (.int 0)) (some .sub) (.ok (.int 1))) = some o ∧ o.rval = .ok (.int (-1)) ∧
      ¬ Replays plainEnv (fun _ => .object .any) uintSpec zeroList zeroList o := by
  refine ⟨_, rfl, rfl, ?_⟩
  rintro ⟨r, hr, -⟩
  have hnone : ctaskRun plainEnv (fun _ => .object .any) uintSpec zeroList
      (.splice 0 1 [.int (-1)]) = none := rfl
  exact Option.some_ne_none r (hr.symm.trans hnone)

theorem uint_push_replayed : SameOnAll plainEnv (fun _ => .object .any) uintSpec
    ⟨fun _ => .int 0, [0], []⟩ zeroList zeroList (.push [.ok (.int 1)]) := by
  refine (exec_replays_iff _ (.push [.ok (.int 1)]) (by decide) trivial rfl rfl).mpr ⟨trivial, ?_⟩
  refine (sendsAll_iff (o := push plainEnv (fun _ => .object .any) uintSpec zeroList
    [.ok (.int 1)]) rfl).mpr ?_
  intro v hv
  obtain rfl : v = .int 1 := List.mem_singleton.mp hv
  exact ⟨by simp [Elem, Val.tp], rfl⟩

end ThingsDB.Lists
