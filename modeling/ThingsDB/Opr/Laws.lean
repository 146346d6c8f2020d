import ThingsDB.Opr.Compare

/-!
# The laws of comparison

For values without floats: equality is symmetric and reads each operand as a value of its own type,
and comparing is a total preorder on the values which can be compared. Both fail for a string and a
date-time, which is read as a string, and the order fails for raw data with NUL bytes, as the end of
raw data compares equal to a NUL.
-/

namespace ThingsDB.Opr

open Util

section Order

theorem order_swap (x y : ℤ) : order y x = -order x y := by
  unfold order
  omega

theorem order_le_iff (x y : ℤ) : order x y ≤ 0 ↔ x ≤ y := by
  unfold order
  split_ifs <;> omega

@[simp]
theorem rawCmp_nil_nil : rawCmp [] [] = 0 := rfl

@[simp]
theorem rawCmp_nil_cons (y : UInt8) (b : Raw) : rawCmp [] (y :: b) = -(y.toNat : ℤ) := by
  simp [rawCmp, memcmp]

@[simp]
theorem rawCmp_cons_nil (x : UInt8) (a : Raw) : rawCmp (x :: a) [] = x.toNat := by
  simp [rawCmp, memcmp]

theorem toNat_sub_ne_zero {x y : UInt8} (h : x ≠ y) : (x.toNat : ℤ) - y.toNat ≠ 0 := by
  intro hzero
  exact h (UInt8.toNat_inj.mp (by omega))

@[simp]
theorem rawCmp_cons_cons (x y : UInt8) (a b : Raw) :
    rawCmp (x :: a) (y :: b) = if x = y then rawCmp a b else (x.toNat : ℤ) - y.toNat := by
  by_cases h : x = y
  · simp [rawCmp, memcmp, h]
  · simp [rawCmp, memcmp, h, toNat_sub_ne_zero h]

theorem rawCmp_nil_le (c : Raw) : rawCmp [] c ≤ 0 := by
  cases c with
  | nil => simp
  | cons z c =>
    rw [rawCmp_nil_cons]
    omega

theorem rawCmp_swap (a b : Raw) : rawCmp b a = -rawCmp a b := by
  induction a generalizing b with
  | nil =>
    cases b with
    | nil => simp
    | cons y b => simp
  | cons x a ih =>
    cases b with
    | nil => simp
    | cons y b =>
      by_cases h : x = y
      · simp [h, ih]
      · simp [h, Ne.symm h]

theorem rawCmp_trans_iff {a b c : Raw} (hab : rawCmp a b ≤ 0) (hbc : rawCmp b c ≤ 0) :
    0 < rawCmp a c ↔ b ++ [0] <+: a ∧ b ++ [0] <+: c ∧ 0 < rawCmp a c := by
  refine ⟨fun h => ?_, fun h => h.2.2⟩
  induction b generalizing a c with
  | nil =>
    cases a with
    | nil => exact absurd h (not_lt.mpr (rawCmp_nil_le c))
    | cons x a =>
      have hx : x = 0 := by
        rw [rawCmp_cons_nil] at hab
        exact UInt8.toNat_inj.mp (by simpa using hab)
      cases c with
      | nil => simp [hx] at h
      | cons z c =>
        have hz : z = 0 := by
          by_contra hne
          rw [rawCmp_cons_cons, if_neg (by rw [hx]; exact Ne.symm hne), hx] at h
          simp at h
          omega
        simpa [hx, hz] using h
  | cons y b ih =>
    cases a with
    | nil => exact absurd h (not_lt.mpr (rawCmp_nil_le c))
    | cons x a =>
      cases c with
      | nil =>
        rw [rawCmp_cons_nil] at hbc h
        have hy : y = 0 := UInt8.toNat_inj.mp (by simpa using hbc)
        have hx : x ≠ y := by
          rintro rfl
          simp [hy] at h
        rw [rawCmp_cons_cons, if_neg hx, hy] at hab
        simp at hab h
        omega
      | cons z c =>
        simp only [rawCmp_cons_cons] at hab hbc h
        by_cases hxy : x = y
        · subst hxy
          by_cases hxz : x = z
          · subst hxz
            simp only [if_true] at hab hbc h
            simpa using ih hab hbc h
          · simp only [hxz, if_false] at hbc h
            omega
        · rw [if_neg hxy] at hab
          by_cases hyz : y = z
          · subst hyz
            rw [if_neg hxy] at h
            omega
          · rw [if_neg hyz] at hbc
            split_ifs at h with hxz
            · subst hxz
              exact absurd (UInt8.toNat_inj.mp (by omega)) hxy
            · omega

theorem rawCmp_pos_iff (a c : Raw) : 0 < rawCmp a c ↔ c < a ∧ ¬ c ++ [0] <+: a := by
  induction a generalizing c with
  | nil =>
    cases c with
    | nil => simp
    | cons z c => simp
  | cons x a ih =>
    cases c with
    | nil =>
      have hx : 0 < x.toNat ↔ ¬ x = 0 := by
        rw [Nat.pos_iff_ne_zero, ← UInt8.toNat_inj]
        rfl
      simp [hx, eq_comm]
    | cons z c =>
      rw [rawCmp_cons_cons, List.cons_lt_cons_iff]
      by_cases h : x = z
      · subst h
        simp [ih]
      · simp [h, Ne.symm h, UInt8.lt_iff_toNat_lt]

end Order

variable {v : Val} {r' : Compared}

section Keys

variable {E : Env} {typeOf : ℕ → Option TypeId} {a b c : Val}

def plain : Val → Val
  | .member _ _ v => plain v
  | v => v

/-- What a value without floats is compared by. -/
inductive Key where
  | num (i : ℤ)
  | time (ts : ℤ)
  | text (data : Raw)

def key : Val → Option Key
  | .int i => some (.num i.toInt)
  | .bool b => some (.num (vbool b).toInt)
  | .datetime ts _ => some (.time ts)
  | .name d | .str d | .bytes d => some (.text d)
  | _ => none

def Key.cmp : Key → Key → Option ℤ
  | num x, num y => some (order x y)
  | time x, time y => some (order x y)
  | text x, text y => some (rawCmp x y)
  | _, _ => none

def keyCmp (a b : Val) : Option ℤ := (key (plain a)).bind fun x => (key (plain b)).bind x.cmp

def Results (r : Compared) : Option ℤ → Prop
  | some z => r = .ok (some z)
  | none => ∃ e, r = .error e

def Same (r r' : Compared) : Prop := r = r' ∨ ∃ e e', r = .error e ∧ r' = .error e'

/-- A value is a member of a value for which the property holds, or not a member. -/
theorem plain_induction {P : Val → Prop} (leaf : ∀ v, v.tp ≠ .member → P v)
    (member : ∀ enum name v, P v → P (.member enum name v)) : ∀ v, P v
  | .member enum name v => member enum name v (plain_induction leaf member v)
  | .nil | .int _ | .float _ | .bool _ | .datetime _ _ | .name _ | .str _ | .bytes _ | .regex _
  | .thing _ | .wrap _ _ | .room _ | .task _ | .arr _ _ | .set _ | .error _ _ | .mpdata _
  | .closure _ | .ano _ | .wano _ _ | .future _ | .module _ => leaf _ (by simp [Val.tp])

theorem not_member (h : v.tp ≠ .member) (enum : EnumId) (name : Raw) (w : Val) :
    v ≠ .member enum name w := by
  rintro rfl
  exact h rfl

theorem plain_of_ne (h : v.tp ≠ .member) : plain v = v :=
  plain.eq_2 v fun enum name w => not_member h enum name w

@[simp]
theorem plain_member (enum : EnumId) (name : Raw) (v : Val) :
    plain (.member enum name v) = plain v := by
  rw [plain]

theorem plain_tp (v : Val) : (plain v).tp ≠ .member := by
  induction v using plain_induction with
  | leaf v h => rwa [plain_of_ne h]
  | member enum name v ih => rwa [plain_member]

theorem compareRight_of_ne (h : b.tp ≠ .member) : compareRight E typeOf a b =
    match compareCase a.tp b.tp with
    | none => notSupported E typeOf a b
    | some (x, y) => .ok ((x.read a).bind fun c => (y.read b).map c.compare) :=
  compareRight.eq_2 _ _ _ _ fun enum name w => not_member h enum name w

theorem compareRight_plain (a b : Val) :
    compareRight E typeOf a b = compareRight E typeOf a (plain b) := by
  induction b using plain_induction with
  | leaf b h => rw [plain_of_ne h]
  | member enum name b ih => rw [compareRight, plain_member, ih]

theorem compare_of_ne (h : a.tp ≠ .member) : compare E typeOf a b = compareRight E typeOf a b :=
  compare.eq_3 _ _ _ _ fun enum name w => not_member h enum name w

theorem compareRight_error (h : compareCase a.tp b.tp = none) (hb : b.tp ≠ .member) :
    compareRight E typeOf a b = notSupported E typeOf a b := by
  rw [compareRight_of_ne hb, h]

theorem compareCase_of_memberCase {s t : Tp} (h : memberCase t = false) :
    compareCase s t = none := by
  cases hcase : compareCase s t with
  | none => rfl
  | some x =>
    have := (comparable_of_compareCase (s := s) (t := t) (by simp [hcase])).2
    cases t <;> simp_all [memberCase, comparable]

theorem same_plain (E : Env) (typeOf : ℕ → Option TypeId) (a b : Val) :
    Same (compare E typeOf a b) (compareRight E typeOf (plain a) (plain b)) := by
  induction a using plain_induction generalizing b with
  | leaf a h =>
    rw [compare_of_ne h, plain_of_ne h, compareRight_plain]
    exact .inl rfl
  | member enum name a ih =>
    rw [plain_member]
    induction b using plain_induction with
    | member enum' name' b _ =>
      rw [compare, plain_member]
      exact ih b
    | leaf b h =>
      rw [compare.eq_2 _ _ _ _ _ _ fun enum name w => not_member h enum name w]
      split_ifs with hcase
      · exact ih b
      · rw [plain_of_ne h, compareRight_error
          (compareCase_of_memberCase (Bool.eq_false_iff.mpr hcase)) h]
        exact .inr ⟨_, _, rfl, rfl⟩

theorem key_eq_none (h : comparable v.tp = false) : key v = none := by
  cases v <;> first | rfl | cases h

/-- Two values which are not members, and not a string and a date-time. -/
theorem results_compareRight (ha : a.tp ≠ .float) (hb : b.tp ≠ .float) (hmember : b.tp ≠ .member)
    (h : ¬ Confuses a.tp b.tp) :
    Results (compareRight E typeOf a b) ((key a).bind fun x => (key b).bind x.cmp) := by
  by_cases hcomp : comparable a.tp = true ∧ comparable b.tp = true
  · rw [compareRight_of_ne hmember]
    obtain ⟨hca, hcb⟩ := hcomp
    -- of the types which can be compared, six by six are left
    cases a <;> simp only [comparable, Val.tp, Bool.false_eq_true] at hca
    all_goals cases b <;> simp only [comparable, Val.tp, Bool.false_eq_true] at hcb
    all_goals first
      | exact absurd rfl ha
      | exact absurd rfl hb
      | exact absurd ⟨rfl, rfl⟩ h
      | rfl
      | exact ⟨_, rfl⟩
  · have hcase : compareCase a.tp b.tp = none := by
      by_contra hne
      exact hcomp (comparable_of_compareCase (Option.isSome_iff_ne_none.mpr hne))
    rw [compareRight_error hcase hmember]
    have hnone : ((key a).bind fun x => (key b).bind x.cmp) = none := by
      by_cases hca : comparable a.tp = true
      · rw [key_eq_none (Bool.eq_false_iff.mpr fun hcb => hcomp ⟨hca, hcb⟩)]
        simp
      · rw [key_eq_none (Bool.eq_false_iff.mpr hca)]
        rfl
    rw [hnone]
    exact ⟨_, rfl⟩

end Keys

section NoFloat

mutual

def noFloat : Val → Bool
  | .float _ => false
  | .member _ _ v => noFloat v
  | .arr _ vec => noFloats vec
  | _ => true

def noFloats : List Val → Bool
  | [] => true
  | v :: vec => noFloat v && noFloats vec

end

theorem plain_ne_float (h : noFloat v) : (plain v).tp ≠ .float := by
  induction v using plain_induction with
  | leaf v hv =>
    rw [plain_of_ne hv]
    intro htp
    cases v <;> cases htp
    simp [noFloat] at h
  | member enum name v ih =>
    rw [plain_member]
    exact ih (by simpa [noFloat] using h)

end NoFloat

variable {r : Compared} {w : Val} {z : ℤ} {a b : Obj}

section Compare

variable {E : Env} {typeOf : ℕ → Option TypeId} {a b c : Val}

/-- A string and a date-time as such, or as values of members. -/
def Mixes (a b : Val) : Prop := Confuses (plain a).tp (plain b).tp

instance (a b : Val) : Decidable (Mixes a b) := inferInstanceAs (Decidable (Confuses _ _))

theorem Same.results {o : Option ℤ} (h : Same r r') (hr : Results r' o) : Results r o := by
  rcases h with rfl | ⟨e, e', rfl, rfl⟩
  · exact hr
  · cases o with
    | none => exact ⟨e, rfl⟩
    | some z => cases hr

theorem results_compare (E : Env) (typeOf : ℕ → Option TypeId) (ha : noFloat a)
    (hb : noFloat b) (h : ¬ Mixes a b) : Results (compare E typeOf a b) (keyCmp a b) :=
  (same_plain E typeOf a b).results
    (results_compareRight (plain_ne_float ha) (plain_ne_float hb) (plain_tp b) h)

theorem compare_of_mixes (h : Mixes a b) : compare E typeOf a b = .ok none := by
  obtain ⟨hstr, htime⟩ := h
  have hright : compareRight E typeOf (plain a) (plain b) = .ok none := by
    rw [compareRight_of_ne (plain_tp b), hstr, htime]
    have hread : As.raw.read (plain b) = none := by
      rw [← Option.isNone_iff_eq_none, ← Option.not_isSome, read_isSome, htime]
      rfl
    simp only [compareCase, hread, Option.map_none]
    cases As.raw.read (plain a) <;> rfl
  rcases same_plain E typeOf a b with heq | ⟨e, e', -, herr⟩
  · rw [heq, hright]
  · rw [hright] at herr
    cases herr

theorem keyCmp_of_mixes (h : Mixes a b) : keyCmp a b = none := by
  obtain ⟨hstr, htime⟩ := h
  rw [keyCmp]
  cases hpa : plain a <;> rw [hpa] at hstr <;> cases hstr
  cases hpb : plain b <;> rw [hpb] at htime <;> cases htime
  rfl

theorem keyCmp_of_ok (ha : noFloat a) (hb : noFloat b)
    (h : compare E typeOf a b = .ok (some z)) : keyCmp a b = some z := by
  by_cases hmix : Mixes a b
  · rw [compare_of_mixes hmix] at h
    cases h
  · have hres := results_compare E typeOf ha hb hmix
    cases hkey : keyCmp a b with
    | none =>
      rw [hkey, h] at hres
      obtain ⟨e, he⟩ := hres
      cases he
    | some z' =>
      rw [hkey, h] at hres
      cases hres
      rfl

theorem Key.cmp_swap (x y : Key) : y.cmp x = (x.cmp y).map (- ·) := by
  cases x with
  | num i =>
    cases y with
    | num j => exact congrArg some (order_swap i j)
    | time | text => rfl
  | time i =>
    cases y with
    | time j => exact congrArg some (order_swap i j)
    | num | text => rfl
  | text d =>
    cases y with
    | text d' => exact congrArg some (rawCmp_swap d d')
    | num | time => rfl

theorem keyCmp_eq_some : keyCmp a b = some z ↔
    ∃ x y, key (plain a) = some x ∧ key (plain b) = some y ∧ x.cmp y = some z := by
  simp only [keyCmp, Option.bind_eq_some_iff]
  constructor
  · rintro ⟨x, hx, y, hy, h⟩
    exact ⟨x, y, hx, hy, h⟩
  · rintro ⟨x, y, hx, hy, h⟩
    exact ⟨x, hx, y, hy, h⟩

theorem keyCmp_swap (a b : Val) : keyCmp b a = (keyCmp a b).map (- ·) := by
  rw [keyCmp, keyCmp]
  cases key (plain a) with
  | none => cases key (plain b) <;> rfl
  | some x =>
    cases key (plain b) with
    | none => rfl
    | some y => exact x.cmp_swap y

/-- Raw data where the second with a NUL is at the begin of the first and the last, which is before
the first by more than NUL bytes. -/
def Collides (a b c : Val) : Prop :=
  ∃ x y z, key (plain a) = some (.text x) ∧ key (plain b) = some (.text y) ∧
    key (plain c) = some (.text z) ∧ y ++ [0] <+: x ∧ y ++ [0] <+: z ∧ z < x ∧ ¬ z ++ [0] <+: x

theorem keyCmp_of_collides (h : Collides a b c) : keyCmp a b = some 0 ∧ keyCmp b c = some 0 ∧
    ∃ z, keyCmp a c = some z ∧ 0 < z := by
  obtain ⟨x, y, z, hx, hy, hz, hyx, hyz, hlt, hnot⟩ := h
  have hzero : ∀ {x y : Raw}, y ++ [0] <+: x → rawCmp y x = 0 := by
    intro x y h
    obtain ⟨t, rfl⟩ := h
    induction y with
    | nil => simp
    | cons u y ih => simpa using ih
  refine ⟨keyCmp_eq_some.mpr ⟨_, _, hx, hy, ?_⟩, keyCmp_eq_some.mpr ⟨_, _, hy, hz, ?_⟩, _,
    keyCmp_eq_some.mpr ⟨_, _, hx, hz, rfl⟩, (rawCmp_pos_iff x z).mpr ⟨hlt, hnot⟩⟩
  · rw [Key.cmp, rawCmp_swap, hzero hyx, neg_zero]
  · rw [Key.cmp, hzero hyz]

/-- Comparing is transitive but for NUL bytes. -/
theorem keyCmp_trans {x y : ℤ} (hab : keyCmp a b = some x) (hx : x ≤ 0) (hbc : keyCmp b c = some y)
    (hy : y ≤ 0) (hnot : ¬ Collides a b c) : ∃ z, keyCmp a c = some z ∧ z ≤ 0 := by
  obtain ⟨ka, kb, hka, hkb, hab⟩ := keyCmp_eq_some.mp hab
  obtain ⟨kb', kc, hkb', hkc, hbc⟩ := keyCmp_eq_some.mp hbc
  obtain rfl : kb = kb' := Option.some.inj (hkb.symm.trans hkb')
  suffices hcmp : ∃ z, ka.cmp kc = some z ∧ z ≤ 0 by
    obtain ⟨z, hz, hle⟩ := hcmp
    exact ⟨z, keyCmp_eq_some.mpr ⟨ka, kc, hka, hkc, hz⟩, hle⟩
  have hint : ∀ i j k : ℤ, order i j ≤ 0 → order j k ≤ 0 → order i k ≤ 0 := by
    simp only [order_le_iff]
    exact fun i j k => le_trans
  cases kb with
  | num j =>
    cases ka <;> cases hab
    cases kc <;> cases hbc
    exact ⟨_, rfl, hint _ _ _ hx hy⟩
  | time j =>
    cases ka <;> cases hab
    cases kc <;> cases hbc
    exact ⟨_, rfl, hint _ _ _ hx hy⟩
  | text d =>
    cases ka <;> cases hab
    cases kc <;> cases hbc
    refine ⟨_, rfl, not_lt.mp fun hpos => hnot ?_⟩
    obtain ⟨hpre, hpre', -⟩ := (rawCmp_trans_iff hx hy).mp hpos
    exact ⟨_, _, _, hka, hkb, hkc, hpre, hpre', (rawCmp_pos_iff _ _).mp hpos⟩

end Compare

section Equality

theorem read_ne_float {x : As} {cell : Cell} (h : x.read v = some cell)
    (hv : v.tp ≠ .float) (f : Float) : cell ≠ .float f := by
  rintro rfl
  unfold As.read at h
  split at h <;> cases h
  exact hv rfl

/-- The symmetry of `==` on doubles, which Lean has no proof of. -/
def FloatSymm : Prop := ∀ x y : Float, (x == y) = (y == x)

theorem Cell.eq_swap {c d : Cell}
    (hf : FloatSymm ∨ (∀ f, c ≠ .float f) ∧ ∀ f, d ≠ .float f) : c.eq d = d.eq c := by
  cases c <;> cases d <;> first
    | rfl
    | exact hf.elim (fun h => h _ _) fun h => absurd rfl (h.1 _)
    | exact hf.elim (fun h => h _ _) fun h => absurd rfl (h.2 _)
    | exact Bool.and_comm _ _
    | simp [Cell.eq, eq_comm]

theorem eqLeaf_of_confuses (h : Confuses v.tp w.tp) : eqLeaf v w = none := by
  obtain ⟨hv, hw⟩ := h
  have hread : As.raw.read w = none := by
    rw [← Option.isNone_iff_eq_none, ← Option.not_isSome, read_isSome, hw]
    rfl
  rw [eqLeaf, hv, hw]
  simp only [eqCase, hread, Option.map_none]
  cases As.raw.read v <;> rfl

theorem exists_read {x : As × As} (hcase : eqCase v.tp w.tp = some x) (h : ¬ Confuses v.tp w.tp) :
    ∃ c d, x.1.read v = some c ∧ x.2.read w = some d := by
  obtain ⟨hfv, hfw⟩ := eqCase_fits hcase h
  rw [← read_isSome, Option.isSome_iff_exists] at hfv hfw
  obtain ⟨c, hc⟩ := hfv
  obtain ⟨d, hd⟩ := hfw
  exact ⟨c, d, hc, hd⟩

theorem exists_eqLeaf (h : ¬ Confuses v.tp w.tp) : ∃ r, eqLeaf v w = some r := by
  rw [eqLeaf]
  cases hcase : eqCase v.tp w.tp with
  | none => exact ⟨false, rfl⟩
  | some x =>
    obtain ⟨c, d, hc, hd⟩ := exists_read hcase h
    exact ⟨c.eq d, by simp [hc, hd]⟩

theorem eqLeaf_swap (hf : FloatSymm ∨ v.tp ≠ .float ∧ w.tp ≠ .float) (h : ¬ Confuses v.tp w.tp)
    (h' : ¬ Confuses w.tp v.tp) : ∃ r, eqLeaf v w = some r ∧ eqLeaf w v = some r := by
  rw [eqLeaf, eqLeaf, eqCase_swap h h']
  cases hcase : eqCase v.tp w.tp with
  | none => exact ⟨false, rfl, rfl⟩
  | some x =>
    obtain ⟨c, d, hc, hd⟩ := exists_read hcase h
    refine ⟨c.eq d, by simp [hc, hd], ?_⟩
    simp [hc, hd, Cell.eq_swap (hf.imp_right fun hn =>
      ⟨read_ne_float hc hn.1, read_ne_float hd hn.2⟩)]

/-- The walk over two values comes to a string of the first and a date-time of the second: they are
at the same place, and what is before them in the lists is equal. -/
inductive Reaches : Obj → Obj → Prop
  | leaf {a b : Obj} (addr : a.addr ≠ b.addr) (str : a.val.tp = .str)
    (datetime : b.val.tp = .datetime) : Reaches a b
  | arr {addr addr' : ℕ} {flags flags' : ArrFlags} {va vb : List Obj} {i : ℕ} {a b : Obj}
    (ne : addr ≠ addr') (length : va.length = vb.length) (ha : va[i]? = some a)
    (hb : vb[i]? = some b)
    (before : ∀ j < i, ∀ x y, va[j]? = some x → vb[j]? = some y → eq x y = some true)
    (at' : Reaches a b) : Reaches (.arr addr flags va) (.arr addr' flags' vb)

/-- The loop does not come past the first place which has no result. -/
theorem eqVec_none {va vb : List Obj} {i : ℕ} (ha : va[i]? = some a) (hb : vb[i]? = some b)
    (before : ∀ j < i, ∀ x y, va[j]? = some x → vb[j]? = some y → eq x y = some true)
    (h : eq a b = none) : eqVec va vb = none := by
  induction i generalizing va vb with
  | zero =>
    cases va with
    | nil => cases ha
    | cons x va =>
      cases vb with
      | nil => cases hb
      | cons y vb =>
        cases ha
        cases hb
        rw [eqVec, h]
  | succ i ih =>
    cases va with
    | nil => cases ha
    | cons x va =>
      cases vb with
      | nil => cases hb
      | cons y vb =>
        rw [eqVec, before 0 (Nat.succ_pos i) x y rfl rfl]
        exact ih ha hb fun j hj x y hx hy => before (j + 1) (Nat.succ_lt_succ hj) x y hx hy

theorem Reaches.eq_none (h : Reaches a b) : eq a b = none := by
  induction h with
  | @leaf a b hne str datetime =>
    cases a with
    | arr => cases str
    | leaf addr v hv =>
      cases b with
      | arr => cases datetime
      | leaf addr' w hw =>
        rw [Opr.eq, if_neg (show addr ≠ addr' from hne)]
        exact eqLeaf_of_confuses ⟨str, datetime⟩
  | arr ne length ha hb before at' ih =>
    rw [Opr.eq, if_neg ne, if_pos length]
    exact eqVec_none ha hb before ih

/-- Values with lists inside of lists. -/
theorem Obj.induction {P : Obj → Prop} (leaf : ∀ addr v hv, P (.leaf addr v hv))
    (arr : ∀ addr flags vec, (∀ o ∈ vec, P o) → P (.arr addr flags vec)) : ∀ o, P o
  | .leaf addr v hv => leaf addr v hv
  | .arr addr flags vec => arr addr flags vec fun o _ => Obj.induction leaf arr o

theorem eqVec_swap {va vb : List Obj}
    (hva : ∀ x ∈ va, ∀ y ∈ vb, ¬ Reaches x y → ¬ Reaches y x →
      ∃ r, eq x y = some r ∧ eq y x = some r)
    (h : ∀ (i : ℕ) x y, va[i]? = some x → vb[i]? = some y →
      (∀ j < i, ∀ x y, va[j]? = some x → vb[j]? = some y → eq x y = some true) →
      (∀ j < i, ∀ x y, vb[j]? = some x → va[j]? = some y → eq x y = some true) →
      ¬ Reaches x y ∧ ¬ Reaches y x) :
    ∃ r, eqVec va vb = some r ∧ eqVec vb va = some r := by
  induction va generalizing vb with
  | nil => exact ⟨true, by simp [eqVec], by cases vb <;> simp [eqVec]⟩
  | cons x va ih =>
    cases vb with
    | nil => exact ⟨true, by simp [eqVec], by simp [eqVec]⟩
    | cons y vb =>
      obtain ⟨hxy, hyx⟩ := h 0 x y rfl rfl (fun j hj => absurd hj (Nat.not_lt_zero j))
        fun j hj => absurd hj (Nat.not_lt_zero j)
      obtain ⟨r, hr, hr'⟩ := hva x List.mem_cons_self y List.mem_cons_self hxy hyx
      rw [eqVec, eqVec, hr, hr']
      cases r with
      | false => exact ⟨false, rfl, rfl⟩
      | true =>
        refine ih (fun x hx y hy => hva x (List.mem_cons_of_mem _ hx) y (List.mem_cons_of_mem _ hy))
          fun i x' y' hx hy hbefore hbefore' => ?_
        refine h (i + 1) x' y' hx hy ?_ ?_
        · intro j hj u w hu hw
          cases j with
          | zero =>
            cases hu
            cases hw
            exact hr
          | succ j => exact hbefore j (Nat.lt_of_succ_lt_succ hj) u w hu hw
        · intro j hj u w hu hw
          cases j with
          | zero =>
            cases hu
            cases hw
            exact hr'
          | succ j => exact hbefore' j (Nat.lt_of_succ_lt_succ hj) u w hu hw

theorem noFloat_of_mem {addr : ℕ} {flags : ArrFlags} {vec : List Obj}
    (h : noFloat (Obj.arr addr flags vec).val) {o : Obj} (ho : o ∈ vec) : noFloat o.val := by
  rw [Obj.val, noFloat] at h
  induction vec with
  | nil => cases ho
  | cons x vec ih =>
    rw [Obj.vals, noFloats, Bool.and_eq_true] at h
    cases ho with
    | head => exact h.1
    | tail _ ho => exact ih h.2 ho

theorem noFloat_ne (h : noFloat v) : v.tp ≠ .float := by
  intro htp
  cases v <;> cases htp
  simp [noFloat] at h

/-- Where no string meets a date-time, equality has a result, the same in both directions. -/
theorem eq_swap (hf : FloatSymm ∨ noFloat a.val ∧ noFloat b.val)
    (h : ¬ Reaches a b) (h' : ¬ Reaches b a) : ∃ r, eq a b = some r ∧ eq b a = some r := by
  induction a using Obj.induction generalizing b with
  | leaf addr v hv =>
    cases b with
    | leaf addr' w hw =>
      rw [Opr.eq, Opr.eq]
      by_cases haddr : addr = addr'
      · exact ⟨true, if_pos haddr, if_pos haddr.symm⟩
      · rw [if_neg haddr, if_neg (Ne.symm haddr)]
        exact eqLeaf_swap (hf.imp_right fun hn => ⟨noFloat_ne hn.1, noFloat_ne hn.2⟩)
          (fun hc => h (.leaf haddr hc.1 hc.2)) fun hc => h' (.leaf (Ne.symm haddr) hc.1 hc.2)
    | arr addr' flags vec =>
      rw [Opr.eq, Opr.eq]
      exact ⟨decide (addr = addr'), rfl, by simp [eq_comm]⟩
  | arr addr flags va ih =>
    cases b with
    | leaf addr' w hw =>
      rw [Opr.eq, Opr.eq]
      exact ⟨decide (addr = addr'), rfl, by simp [eq_comm]⟩
    | arr addr' flags' vb =>
      rw [Opr.eq, Opr.eq]
      by_cases haddr : addr = addr'
      · exact ⟨true, if_pos haddr, if_pos haddr.symm⟩
      · rw [if_neg haddr, if_neg (Ne.symm haddr)]
        by_cases hlen : va.length = vb.length
        · rw [if_pos hlen, if_pos hlen.symm]
          refine eqVec_swap (fun x hx y hy => ih x hx
            (hf.imp_right fun hn => ⟨noFloat_of_mem hn.1 hx, noFloat_of_mem hn.2 hy⟩))
            fun i x y hx hy hbefore hbefore' => ⟨fun hr => ?_, fun hr => ?_⟩
          · exact h (.arr haddr hlen hx hy hbefore hr)
          · exact h' (.arr (Ne.symm haddr) hlen.symm hy hx hbefore' hr)
        · rw [if_neg hlen, if_neg (Ne.symm hlen)]
          exact ⟨false, rfl, rfl⟩

end Equality

section Laws

variable (E : Env) (typeOf : ℕ → Option TypeId)

/-- Comparing succeeds in both directions with opposite results, or in none. -/
def Opposite (r r' : Compared) : Prop :=
  (∃ e e', r = .error e ∧ r' = .error e') ∨
    ∃ x y, r = .ok (some x) ∧ r' = .ok (some y) ∧ (x < 0 ↔ 0 < y) ∧ (x = 0 ↔ y = 0)

/-- The laws for the equality of two values, and for comparing them and a third one. -/
structure Laws (a b c : Obj) : Prop where
  eq_symm : ∃ r, eq a b = some r ∧ eq b a = some r
  opposite : Opposite (compare E typeOf a.val b.val) (compare E typeOf b.val a.val)
  trans : ∀ x y r, compare E typeOf a.val b.val = .ok (some x) → x ≤ 0 →
    compare E typeOf b.val c.val = .ok (some y) → y ≤ 0 →
    compare E typeOf a.val c.val = .ok r → ∃ z ≤ 0, r = some z
  member_left : ∀ enum name,
    Same (compare E typeOf (.member enum name a.val) b.val) (compare E typeOf a.val b.val)
  member_right : ∀ enum name,
    Same (compare E typeOf a.val (.member enum name b.val)) (compare E typeOf a.val b.val)

variable {E typeOf} {a b c : Val}

theorem Same.symm (h : Same r r') : Same r' r := by
  rcases h with rfl | ⟨e, e', rfl, rfl⟩
  · exact .inl rfl
  · exact .inr ⟨e', e, rfl, rfl⟩

theorem Same.trans {r'' : Compared} (h : Same r r') (h' : Same r' r'') : Same r r'' := by
  rcases h with rfl | ⟨e, e', rfl, rfl⟩
  · exact h'
  · rcases h' with rfl | ⟨e₁, e₂, h₁, rfl⟩
    · exact .inr ⟨e, e', rfl, rfl⟩
    · exact .inr ⟨e, e₂, rfl, rfl⟩

theorem same_of_plain {a' b' : Val} (ha : plain a = plain a') (hb : plain b = plain b') :
    Same (compare E typeOf a b) (compare E typeOf a' b') := by
  have h := same_plain E typeOf a b
  rw [ha, hb] at h
  exact h.trans (same_plain E typeOf a' b').symm

theorem opposite_of_not_mixes (ha : noFloat a) (hb : noFloat b) (h : ¬ Mixes a b)
    (h' : ¬ Mixes b a) : Opposite (compare E typeOf a b) (compare E typeOf b a) := by
  have hres := results_compare E typeOf ha hb h
  have hres' := results_compare E typeOf hb ha h'
  rw [keyCmp_swap a b] at hres'
  cases hkey : keyCmp a b with
  | none =>
    rw [hkey] at hres hres'
    obtain ⟨e, he⟩ := hres
    obtain ⟨e', he'⟩ := hres'
    exact .inl ⟨e, e', he, he'⟩
  | some z =>
    rw [hkey] at hres hres'
    exact .inr ⟨z, -z, hres, hres', by omega, by omega⟩

/-- The laws hold for values without floats, unless a string is compared with a date-time or the
NUL bytes of raw data are in the way. -/
theorem laws_iff (a b c : Obj) (ha : noFloat a.val = true) (hb : noFloat b.val = true)
    (hc : noFloat c.val = true) :
    Laws E typeOf a b c ↔ ¬ Reaches a b ∧ ¬ Reaches b a ∧ ¬ Mixes a.val b.val ∧
      ¬ Mixes b.val a.val ∧ ¬ Collides a.val b.val c.val := by
  constructor
  · intro h
    obtain ⟨r, hr, hr'⟩ := h.eq_symm
    refine ⟨fun hn => ?_, fun hn => ?_, fun hm => ?_, fun hm => ?_, fun hcol => ?_⟩
    · rw [hn.eq_none] at hr
      cases hr
    · rw [hn.eq_none] at hr'
      cases hr'
    · rcases h.opposite with ⟨e, e', he, -⟩ | ⟨x, y, hx, -⟩
      · rw [compare_of_mixes hm] at he
        cases he
      · rw [compare_of_mixes hm] at hx
        cases hx
    · rcases h.opposite with ⟨e, e', -, he⟩ | ⟨x, y, -, hy, -⟩
      · rw [compare_of_mixes hm] at he
        cases he
      · rw [compare_of_mixes hm] at hy
        cases hy
    · obtain ⟨hab, hbc, z, hac, hz⟩ := keyCmp_of_collides hcol
      have hok : ∀ {a b : Val} {z : ℤ}, noFloat a = true → noFloat b = true →
          keyCmp a b = some z → compare E typeOf a b = .ok (some z) := by
        intro a b z ha hb hkey
        have hres := results_compare E typeOf ha hb fun hm => by
          rw [keyCmp_of_mixes hm] at hkey
          cases hkey
        rwa [hkey] at hres
      obtain ⟨z', hz', heq⟩ := h.trans 0 0 (some z) (hok ha hb hab) le_rfl (hok hb hc hbc) le_rfl
        (hok ha hc hac)
      cases heq
      omega
  · rintro ⟨hn, hn', hm, hm', hcol⟩
    refine ⟨eq_swap (.inr ⟨ha, hb⟩) hn hn', opposite_of_not_mixes ha hb hm hm', ?_, ?_, ?_⟩
    · intro x y r hx hxle hy hyle hr
      obtain ⟨z, hz, hle⟩ := keyCmp_trans (keyCmp_of_ok ha hb hx) hxle (keyCmp_of_ok hb hc hy) hyle
        hcol
      have hres := results_compare E typeOf ha hc fun hmix => by
        rw [keyCmp_of_mixes hmix] at hz
        cases hz
      rw [hz, hr] at hres
      cases hres
      exact ⟨z, hle, rfl⟩
    · exact fun enum name => same_of_plain (plain_member enum name _) rfl
    · exact fun enum name => same_of_plain rfl (plain_member enum name _)

/-- A member of an enumerator, a Boolean and an integer. -/
theorem laws_iff_numbers : Laws default (fun _ => none)
    (.leaf 0 (.member 0 [] (.int 3)) (by decide))
    (.leaf 1 (.bool true) (by decide)) (.leaf 2 (.int 5) (by decide)) := by
  refine (laws_iff _ _ _ (by decide) (by decide) (by decide)).mpr ⟨?_, ?_, ?_, ?_, ?_⟩
  · rintro ⟨⟩
    contradiction
  · rintro ⟨⟩
    contradiction
  · decide
  · decide
  · rintro ⟨x, y, z, hx, -⟩
    cases hx

/-- A date-time is read as a string, and the order of raw data is not transitive. -/
theorem laws_fail :
    (eq (.leaf 0 (.str []) (by decide)) (.leaf 1 (.datetime 0 false) (by decide)) = none ∧
      eq (.leaf 1 (.datetime 0 false) (by decide)) (.leaf 0 (.str []) (by decide)) = some false) ∧
    (compare default (fun _ => none) (.bytes [0, 2]) (.bytes []) = .ok (some 0) ∧
      compare default (fun _ => none) (.bytes []) (.bytes [0, 1]) = .ok (some 0) ∧
      compare default (fun _ => none) (.bytes [0, 2]) (.bytes [0, 1]) = .ok (some 1)) :=
  ⟨⟨rfl, rfl⟩, rfl, rfl, rfl⟩

end Laws

end ThingsDB.Opr
