import ThingsDB.Opr

/-!
# Operators before an expression

`ti_preopr_bind` keeps a sequence of `~`, `!`, `-` and `+` as a few flags, from which
`ti_preopr_calc` gets the value of the whole sequence. It is compared with the operators
applied one by one, the last one first.
-/

namespace ThingsDB.Preopr

open Opr List

/-- The flags `PO__FLAG_*`. -/
structure Flags where
  isFalse : Bool
  isBool : Bool
  negative : Bool
  asNum : Bool
  chkNum : Bool
  bitInv : Bool
  bitwise : Bool
  deriving DecidableEq, Repr

/-- The counters of `ti_preopr_bind`. -/
structure Count where
  negative : ℕ
  nots : ℕ
  inverts : ℕ
  deriving DecidableEq, Repr

def Count.first (c : Char) : Count :=
  if c = '-' then ⟨1, 0, 0⟩ else if c = '!' then ⟨0, 1, 0⟩ else if c = '~' then ⟨0, 0, 1⟩
  else ⟨0, 0, 0⟩

/-- Any other character; a sign to the right of a `!` is ignored. -/
def Count.next (k : Count) (c : Char) : Count :=
  if c = '-' then { k with negative := k.negative + if k.nots = 0 then 1 else 0 }
  else if c = '!' then { k with nots := k.nots + 1 }
  else if c = '~' then { k with inverts := k.inverts + 1 }
  else k

/-- The flags for the counters, where `first` and `last` are the first and last character. -/
def Count.flags (k : Count) (first last : Char) : Flags where
  isFalse := k.nots % 2 = 1
  isBool := k.nots ≠ 0
  negative := k.negative % 2 = 1
  asNum := first = '-' ∨ first = '+' ∨ first = '~'
  chkNum := last ≠ '!'
  bitInv := k.inverts % 2 = 1
  bitwise := first = '~'

def bind : List Char → Flags
  | [] => ⟨false, false, false, false, false, false, false⟩
  | c :: s => (s.foldl Count.next (.first c)).flags c (s.getLastD c)

section Calc

variable (E : Env) (typeOf : ℕ → Option TypeId) (thingN runAt : ℕ → ℕ)

def typeError (opr : String) (v : Val) : Except Ex Val :=
  .error ⟨.typeError, "`" ++ opr ++ "` not supported by type `" ++ v.valStr E typeOf ++ "`"⟩

def negInt (i : Int64) : Except Ex Int64 :=
  if i = Int64.minValue then .error ⟨.overflow, "integer overflow"⟩ else .ok (-i)

def sign (negative : Bool) (i : Int64) : Except Ex Int64 := if negative then negInt i else .ok i

/-- The last part of `ti_preopr_calc`, without a `!` and with an even number of `~`. -/
def calcNum (p : Flags) : Val → Except Ex Val
  | .int i => (sign p.negative i).map .int
  | .float f => .ok (.float (if p.negative then -f else f))
  | .bool b => .ok (.int (if p.negative then -vbool b else vbool b))
  | v => .ok v

/-- The negation of a `_Bool` which is stored as a `_Bool`. -/
def negBool (b : Bool) : Bool := -vbool b ≠ 0

/-- The part of `ti_preopr_calc` with `~`. -/
def calcBitwise (p : Flags) : Val → Except Ex Val
  | .int i => if p.bitInv then (sign p.negative i).map fun i => .int (~~~i) else calcNum p (.int i)
  | .float f => typeError E typeOf "~" (.float f)
  | .bool b =>
    if p.bitInv then .ok (.int (~~~vbool (if p.negative then negBool b else b)))
    else calcNum p (.bool b)
  | v => calcNum p v

/-- The part of `ti_preopr_calc` with `!`, where `b` is the boolean of all `!`. -/
def calcBool (p : Flags) (b : Bool) : Val :=
  if p.bitInv then .int (~~~(if p.negative then -vbool b else vbool b))
  else if p.asNum then .int (if p.negative then -vbool b else vbool b)
  else .bool b

def preoprCalc (p : Flags) (v : Val) : Except Ex Val :=
  if p.chkNum ∧ v.tp ≠ .int ∧ v.tp ≠ .float ∧ v.tp ≠ .bool then
    typeError E typeOf (if p.bitwise then "~" else "-/+") v
  else if p.isBool then .ok (calcBool p (p.isFalse ^^ v.asBool thingN runAt))
  else if p.bitwise then calcBitwise E typeOf p v
  else calcNum p v

end Calc

/-! ## One operator at a time -/

inductive Op where
  | invert
  | not
  | neg
  | pos
  deriving DecidableEq, Repr

def Op.char : Op → Char
  | .invert => '~'
  | .not => '!'
  | .neg => '-'
  | .pos => '+'

def isSpace (c : Char) : Bool := c ∈ [' ', '\t', '\n', '\x0b', '\x0c', '\r']

/-- The text of a sequence of operators, with white space between them. -/
inductive Text : List Char → List Op → Prop where
  | single (op : Op) : Text [op.char] [op]
  | cons (op : Op) (space : List Char) {s : List Char} {ops : List Op}
    (hspace : ∀ c ∈ space, isSpace c) (h : Text s ops) : Text (op.char :: (space ++ s)) (op :: ops)

/-- The sequences of the grammar: each `~` is before all others. -/
def Grammar (ops : List Op) : Prop :=
  ∃ (k : ℕ) (rest : List Op), ops = List.replicate k .invert ++ rest ∧ Op.invert ∉ rest

section Apply

variable (E : Env) (typeOf : ℕ → Option TypeId) (thingN runAt : ℕ → ℕ)

def num : Val → Option Int64
  | .int i => some i
  | .bool b => some (vbool b)
  | _ => none

/-- One operator. Floats are not considered. -/
def apply (op : Op) (v : Val) : Except Ex Val :=
  match op, num v with
  | .not, _ => .ok (.bool !v.asBool thingN runAt)
  | .neg, some i => (negInt i).map .int
  | .pos, some i => .ok (.int i)
  | .invert, some i => .ok (.int (~~~i))
  | .invert, none => typeError E typeOf "~" v
  | _, none => typeError E typeOf "-/+" v

def applyAll : List Op → Val → Except Ex Val
  | [], v => .ok v
  | op :: ops, v => (applyAll ops v).bind (apply E typeOf thingN runAt op)

end Apply

/-! ## The counters -/

/-- The counters of a sequence, from the right: a `!` hides the signs after it. -/
def tally : List Op → Count
  | [] => ⟨0, 0, 0⟩
  | .invert :: ops => { tally ops with inverts := (tally ops).inverts + 1 }
  | .not :: ops => { tally ops with negative := 0, nots := (tally ops).nots + 1 }
  | .neg :: ops => { tally ops with negative := (tally ops).negative + 1 }
  | .pos :: ops => tally ops

def Count.then (k m : Count) : Count :=
  ⟨k.negative + if k.nots = 0 then m.negative else 0, k.nots + m.nots, k.inverts + m.inverts⟩

theorem Count.first_eq (c : Char) : Count.first c = Count.next ⟨0, 0, 0⟩ c := rfl

theorem Count.next_space {c : Char} (hc : isSpace c) (k : Count) : k.next c = k := by
  have h : c ≠ '-' ∧ c ≠ '!' ∧ c ≠ '~' := by
    refine ⟨?_, ?_, ?_⟩ <;> rintro rfl <;> exact absurd hc (by decide)
  rw [next, if_neg h.1, if_neg h.2.1, if_neg h.2.2]

theorem Count.foldl_space {space : List Char} (h : ∀ c ∈ space, isSpace c) (k : Count) :
    space.foldl Count.next k = k := by
  induction space with
  | nil => rfl
  | cons c space ih =>
    rw [foldl_cons, next_space (h c mem_cons_self)]
    exact ih fun d hd => h d (mem_cons_of_mem c hd)

theorem Count.next_then (k : Count) (op : Op) (ops : List Op) :
    (k.next op.char).then (tally ops) = k.then (tally (op :: ops)) := by
  cases op with
  | invert => simp [next, Count.then, tally, Op.char]; omega
  | not => simp [next, Count.then, tally, Op.char]; omega
  | neg => by_cases hk : k.nots = 0 <;> simp [next, Count.then, tally, Op.char, hk]; omega
  | pos => simp [next, Count.then, tally, Op.char]

variable {ops : List Op} {s : List Char} {op : Op} {e : Ex}

theorem Text.foldl (h : Text s ops) (k : Count) : s.foldl Count.next k = k.then (tally ops) := by
  induction h generalizing k with
  | single op =>
    rw [← Count.next_then]
    simp [Count.then, tally]
  | cons op space hspace h ih =>
    rw [foldl_cons, foldl_append, Count.foldl_space hspace, ih, Count.next_then]

theorem Text.ne_nil (h : Text s ops) : ops ≠ [] := by
  cases h <;> simp

theorem Text.getLast (h : Text s ops) (c : Char) : s.getLastD c = (ops.getLast h.ne_nil).char := by
  induction h generalizing c with
  | single op => rfl
  | @cons op space s ops hspace h ih =>
    rw [getLast_cons h.ne_nil, ← ih (space.getLast?.getD op.char)]
    simp [getLastD_eq_getLast?, getLast?_cons, getLast?_append]

theorem Text.head {c : Char} (h : Text (c :: s) ops) : c = (ops.head h.ne_nil).char := by
  cases h <;> rfl

theorem bind_text (h : Text s ops) :
    bind s = (tally ops).flags (ops.head h.ne_nil).char (ops.getLast h.ne_nil).char := by
  cases s with
  | nil => nomatch h
  | cons c s =>
    have hcount := h.foldl ⟨0, 0, 0⟩
    rw [foldl_cons, ← Count.first_eq] at hcount
    have hlast := h.getLast c
    rw [getLastD_cons] at hlast
    rw [bind, hcount, hlast, ← h.head]
    simp [Count.then]

/-! ## What the operators give one by one -/

section Apply

variable {E : Env} {typeOf : ℕ → Option TypeId} {thingN runAt : ℕ → ℕ} {v w : Val}
  {ops core : List Op} {i : Int64}

theorem negInt_eq_ok {i j : Int64} (h : negInt i = .ok j) : i ≠ Int64.minValue ∧ j = -i := by
  unfold negInt at h
  split_ifs at h with hi
  exact ⟨hi, (Except.ok.inj h).symm⟩

theorem applyAll_append (xs ys : List Op) (v : Val) : applyAll E typeOf thingN runAt (xs ++ ys) v =
    (applyAll E typeOf thingN runAt ys v).bind (applyAll E typeOf thingN runAt xs) := by
  induction xs with
  | nil =>
    rw [nil_append]
    cases applyAll E typeOf thingN runAt ys v <;> rfl
  | cons op xs ih =>
    rw [cons_append, applyAll, ih]
    cases applyAll E typeOf thingN runAt ys v <;> rfl

/-- The boolean of the `!` in a sequence. -/
def notsOf (thingN runAt : ℕ → ℕ) (ops : List Op) (v : Val) : Bool :=
  decide ((tally ops).nots % 2 = 1) ^^ v.asBool thingN runAt

/-- The number for a boolean with the signs of a sequence. -/
def signed (ops : List Op) (b : Bool) : Int64 :=
  if (tally ops).negative % 2 = 1 then -vbool b else vbool b

/-- What a sequence without `~` gives. -/
inductive Gives (thingN runAt : ℕ → ℕ) (v : Val) : List Op → Val → Prop where
  | self : Gives thingN runAt v [] v
  | num {ops : List Op} {i j : Int64} (hops : ops ≠ []) (hnots : (tally ops).nots = 0)
    (hi : num v = some i) (hj : sign ((tally ops).negative % 2 = 1) i = .ok j) :
    Gives thingN runAt v ops (.int j)
  | not {ops : List Op} : Gives thingN runAt v (.not :: ops)
    (.bool (notsOf thingN runAt (.not :: ops) v))
  | signs {op : Op} {ops : List Op} (hop : op ≠ .not) (hnots : (tally ops).nots ≠ 0) :
    Gives thingN runAt v (op :: ops)
      (.int (signed (op :: ops) (notsOf thingN runAt (op :: ops) v)))

theorem asBool_of_num (hi : num v = some i) : v.asBool thingN runAt = decide (i ≠ 0) := by
  cases v with
  | int j =>
    obtain rfl : j = i := by simpa [num] using hi
    rfl
  | bool b =>
    obtain rfl : vbool b = i := by simpa [num] using hi
    cases b <;> rfl
  | _ => simp [num] at hi

theorem sign_ne_zero {n : Bool} {j : Int64} (hj : sign n i = .ok j) : j ≠ 0 ↔ i ≠ 0 := by
  cases n with
  | false =>
    obtain rfl : i = j := by simpa [sign] using hj
    rfl
  | true =>
    obtain ⟨-, rfl⟩ := negInt_eq_ok hj
    simp

theorem Gives.asBool (h : Gives thingN runAt v ops w) :
    w.asBool thingN runAt = notsOf thingN runAt ops v := by
  cases h with
  | self => simp [notsOf, tally]
  | num hops hnots hi hj =>
    simp [notsOf, hnots, asBool_of_num hi, Val.asBool, sign_ne_zero hj]
  | not => rfl
  | signs hop hnots =>
    rw [signed]
    cases notsOf thingN runAt _ v <;> split_ifs <;> rfl

theorem Gives.num_cases (h : Gives thingN runAt v ops w) (hi : Preopr.num w = some i) :
    (tally ops).nots = 0 ∧
      (∃ i₀, Preopr.num v = some i₀ ∧ sign ((tally ops).negative % 2 = 1) i₀ = .ok i) ∨
    (tally ops).nots ≠ 0 ∧ i = signed ops (notsOf thingN runAt ops v) := by
  cases h with
  | self => exact .inl ⟨rfl, i, hi, rfl⟩
  | num hops hnots hi₀ hj =>
    obtain rfl := Option.some.inj hi
    exact .inl ⟨hnots, _, hi₀, hj⟩
  | not =>
    obtain rfl := Option.some.inj hi
    exact .inr ⟨by simp [tally], rfl⟩
  | @signs op ops hop hnots =>
    obtain rfl := Option.some.inj hi
    refine .inr ⟨?_, rfl⟩
    cases op <;> simp_all [tally]

theorem notsOf_not (ops : List Op) (v : Val) :
    notsOf thingN runAt (.not :: ops) v = !notsOf thingN runAt ops v := by
  have hparity : decide (((tally ops).nots + 1) % 2 = 1) = !decide ((tally ops).nots % 2 = 1) := by
    rw [← decide_not, decide_eq_decide]
    omega
  rw [notsOf, tally, hparity, Bool.not_xor, notsOf]

theorem signed_neg (ops : List Op) (b : Bool) : signed (.neg :: ops) b = -signed ops b := by
  unfold signed
  rw [tally]
  obtain h | h := Nat.mod_two_eq_zero_or_one (tally ops).negative
  · rw [if_pos (show ((tally ops).negative + 1) % 2 = 1 by omega), if_neg (by omega)]
  · rw [if_neg (show ¬((tally ops).negative + 1) % 2 = 1 by omega), if_pos h, Int64.neg_neg]

theorem sign_neg {i₀ : Int64} (n : ℕ) (h : sign (n % 2 = 1) i₀ = .ok i)
    (hi : i ≠ Int64.minValue) : sign ((n + 1) % 2 = 1) i₀ = .ok (-i) := by
  obtain hn | hn := Nat.mod_two_eq_zero_or_one n
  · obtain rfl : i₀ = i := by simpa [sign, hn] using h
    have hsucc : (n + 1) % 2 = 1 := by omega
    simp [sign, hsucc, negInt, hi]
  · rw [decide_eq_true hn] at h
    obtain ⟨-, rfl⟩ := negInt_eq_ok h
    have hsucc : ¬(n + 1) % 2 = 1 := by omega
    simp [sign, hsucc]

theorem apply_neg (h : apply E typeOf thingN runAt .neg v = .ok w) :
    ∃ i, num v = some i ∧ i ≠ Int64.minValue ∧ w = .int (-i) := by
  unfold apply at h
  cases hi : num v with
  | none => simp [hi, typeError] at h
  | some i =>
    simp only [hi] at h
    cases hj : negInt i with
    | error e => simp [hj, Except.map] at h
    | ok j =>
      obtain ⟨hmin, rfl⟩ := negInt_eq_ok hj
      rw [hj] at h
      exact ⟨i, rfl, hmin, (Except.ok.inj h).symm⟩

theorem apply_pos (h : apply E typeOf thingN runAt .pos v = .ok w) :
    ∃ i, num v = some i ∧ w = .int i := by
  unfold apply at h
  cases hi : num v with
  | none => simp [hi, typeError] at h
  | some i =>
    simp only [hi] at h
    exact ⟨i, rfl, (Except.ok.inj h).symm⟩

theorem Gives.cons {u : Val} (hop : op ≠ .invert) (h : Gives thingN runAt v ops w)
    (hu : apply E typeOf thingN runAt op w = .ok u) : Gives thingN runAt v (op :: ops) u := by
  cases op with
  | invert => exact absurd rfl hop
  | not =>
    obtain rfl : _ = u := Except.ok.inj hu
    rw [h.asBool, ← notsOf_not]
    exact .not
  | neg =>
    obtain ⟨i, hi, hmin, rfl⟩ := apply_neg hu
    obtain ⟨hnots, i₀, hi₀, hsign⟩ | ⟨hnots, rfl⟩ := h.num_cases hi
    · exact .num (by simp) hnots hi₀ (sign_neg _ hsign hmin)
    · rw [← signed_neg]
      exact .signs (by decide) hnots
  | pos =>
    obtain ⟨i, hi, rfl⟩ := apply_pos hu
    obtain ⟨hnots, i₀, hi₀, hsign⟩ | ⟨hnots, rfl⟩ := h.num_cases hi
    · exact .num (by simp) hnots hi₀ hsign
    · exact .signs (by decide) hnots

/-- The operators from right to left, without a `~`. -/
theorem gives_of_applyAll (hcore : Op.invert ∉ core)
    (h : applyAll E typeOf thingN runAt core v = .ok w) : Gives thingN runAt v core w := by
  induction core generalizing w with
  | nil =>
    obtain rfl := Except.ok.inj h
    exact .self
  | cons op core ih =>
    rw [mem_cons, not_or] at hcore
    rw [applyAll] at h
    cases hw : applyAll E typeOf thingN runAt core v with
    | error e => simp [hw, Except.bind] at h
    | ok u =>
      rw [hw] at h
      exact (ih hcore.2 hw).cons (Ne.symm hcore.1) h

/-- Each `~` inverts the number of what comes after. -/
theorem applyAll_inverts (k : ℕ) :
    applyAll E typeOf thingN runAt (replicate (k + 1) .invert) v =
      match num v with
      | some i => .ok (.int (if (k + 1) % 2 = 1 then ~~~i else i))
      | none => typeError E typeOf "~" v := by
  induction k with
  | zero => cases h : num v <;> simp [applyAll, apply, h, Except.bind]
  | succ k ih =>
    rw [replicate_succ, applyAll, ih]
    cases h : num v with
    | none => rfl
    | some i =>
      obtain hk | hk : (k + 1) % 2 = 1 ∨ (k + 1) % 2 = 0 := by omega
      · have hsucc : ¬(k + 1 + 1) % 2 = 1 := by omega
        simp [hk, hsucc, Except.bind, apply, num]
      · have hsucc : (k + 1 + 1) % 2 = 1 := by omega
        simp [hk, hsucc, Except.bind, apply, num]

theorem num_eq_none_iff (hv : v.tp ≠ .float) :
    num v = none ↔ v.tp ≠ .int ∧ v.tp ≠ .float ∧ v.tp ≠ .bool := by
  cases v <;> simp_all [num, Val.tp]

/-- With a sign or a `~` at the end the operand must be a number. -/
theorem num_of_applyAll (hops : ops ≠ []) (hlast : ops.getLast hops ≠ .not)
    (h : applyAll E typeOf thingN runAt ops v = .ok w) : num v ≠ none := by
  intro hnum
  obtain ⟨init, op, rfl⟩ := (eq_nil_or_concat' ops).resolve_left hops
  rw [getLast_concat] at hlast
  have hop : ∀ u, apply E typeOf thingN runAt op v ≠ .ok u := by
    intro u
    cases op <;> simp_all [apply, typeError]
  rw [applyAll_append, applyAll, applyAll] at h
  cases hu : apply E typeOf thingN runAt op v with
  | ok u => exact hop u hu
  | error e =>
    rw [show (Except.ok v : Except Ex Val).bind (apply E typeOf thingN runAt op) = .error e from hu]
      at h
    exact nomatch h

end Apply

/-! ## The flags of a sequence -/

theorem nots_eq_count (ops : List Op) : (tally ops).nots = ops.count .not := by
  induction ops with
  | nil => rfl
  | cons op ops ih => cases op <;> simp [tally, ih]

theorem inverts_eq_count (ops : List Op) : (tally ops).inverts = ops.count .invert := by
  induction ops with
  | nil => rfl
  | cons op ops ih => cases op <;> simp [tally, ih]

theorem negative_eq_count (h : Op.not ∉ ops) : (tally ops).negative = ops.count .neg := by
  induction ops with
  | nil => rfl
  | cons op ops ih =>
    rw [mem_cons, not_or] at h
    cases op with
    | not => exact absurd rfl h.1
    | _ => simp [tally, ih h.2]

theorem tally_inverts (k : ℕ) (core : List Op) :
    tally (replicate k .invert ++ core) =
      { tally core with inverts := (tally core).inverts + k } := by
  induction k with
  | zero => rfl
  | succ k ih =>
    rw [replicate_succ, cons_append, tally, ih]
    simp [Nat.add_assoc]

/-- The flags of `ti_preopr_bind` for a sequence. -/
def flagsOf (ops : List Op) (hops : ops ≠ []) : Flags :=
  (tally ops).flags (ops.head hops).char (ops.getLast hops).char

section Calc

variable {E : Env} {typeOf : ℕ → Option TypeId} {thingN runAt : ℕ → ℕ} {v w : Val}
  {ops core : List Op} {i j : Int64} {p : Flags}

theorem char_eq_not_iff (op : Op) : op.char = '!' ↔ op = .not := by
  cases op <;> decide

theorem chkNum_flagsOf (hops : ops ≠ []) : (flagsOf ops hops).chkNum ↔ ops.getLast hops ≠ .not := by
  simp [flagsOf, Count.flags, char_eq_not_iff]

/-- The check of the type passes when the operators succeed one by one. -/
theorem preoprCalc_of_applyAll (hops : ops ≠ []) (hv : v.tp ≠ .float)
    (h : applyAll E typeOf thingN runAt ops v = .ok w) :
    preoprCalc E typeOf thingN runAt (flagsOf ops hops) v =
      if (flagsOf ops hops).isBool then
        .ok (calcBool (flagsOf ops hops) (notsOf thingN runAt ops v))
      else if (flagsOf ops hops).bitwise then calcBitwise E typeOf (flagsOf ops hops) v
      else calcNum (flagsOf ops hops) v := by
  have hguard : ¬((flagsOf ops hops).chkNum = true ∧ v.tp ≠ .int ∧ v.tp ≠ .float ∧
      v.tp ≠ .bool) := by
    rw [← num_eq_none_iff hv, chkNum_flagsOf]
    exact fun ⟨hlast, hnum⟩ => num_of_applyAll hops hlast h hnum
  rw [preoprCalc, if_neg hguard]
  rfl

theorem calcNum_of_sign (hi : num v = some i) (hj : sign p.negative i = .ok j) :
    calcNum p v = .ok (.int j) := by
  cases v with
  | int x =>
    obtain rfl := Option.some.inj hi
    rw [calcNum, hj]
    rfl
  | bool b =>
    obtain rfl := Option.some.inj hi
    cases hp : p.negative with
    | false =>
      obtain rfl : vbool b = j := by simpa [sign, hp] using hj
      simp [calcNum, hp]
    | true =>
      rw [hp] at hj
      obtain ⟨-, rfl⟩ := negInt_eq_ok hj
      simp [calcNum, hp]
  | _ => simp [num] at hi

/-- A negative `true` is a one again when it is stored as a boolean. -/
theorem calcBitwise_of_sign (hi : num v = some i) (hj : sign p.negative i = .ok j)
    (hv : ¬(p.bitInv ∧ p.negative ∧ v = .bool true)) :
    calcBitwise E typeOf p v = .ok (.int (if p.bitInv then ~~~j else j)) := by
  by_cases hp : p.bitInv = true
  · rw [if_pos hp]
    cases v with
    | int x =>
      obtain rfl := Option.some.inj hi
      rw [calcBitwise, if_pos hp, hj]
      rfl
    | bool b =>
      obtain rfl := Option.some.inj hi
      rw [calcBitwise, if_pos hp]
      cases hneg : p.negative with
      | false =>
        obtain rfl : vbool b = j := by simpa [sign, hneg] using hj
        rfl
      | true =>
        obtain rfl : b = false := by simpa [hp, hneg] using hv
        rw [hneg] at hj
        obtain ⟨-, rfl⟩ := negInt_eq_ok (i := vbool false) hj
        rfl
    | _ => simp [num] at hi
  · rw [if_neg hp]
    rw [← calcNum_of_sign hi hj]
    cases v with
    | int x => rw [calcBitwise, if_neg hp]
    | bool b => rw [calcBitwise, if_neg hp]
    | _ => simp [num] at hi

/-- The sequences and operands with another result: an odd number of `~` before an odd number of
`-`, and a `true`. -/
def Bad (ops : List Op) (v : Val) : Prop :=
  Op.not ∉ ops ∧ ops.count .invert % 2 = 1 ∧ ops.count .neg % 2 = 1 ∧ v = .bool true

theorem notsOf_inverts (k : ℕ) (core : List Op) (v : Val) :
    notsOf thingN runAt (replicate k .invert ++ core) v = notsOf thingN runAt core v := by
  rw [notsOf, tally_inverts, notsOf]

/-- Without a `~` the flags give the same as the operators one by one. -/
theorem preoprCalc_core (hops : core ≠ []) (hcore : Op.invert ∉ core) (hv : v.tp ≠ .float)
    (h : applyAll E typeOf thingN runAt core v = .ok w) :
    preoprCalc E typeOf thingN runAt (flagsOf core hops) v = .ok w := by
  have hinv : (tally core).inverts = 0 := by
    rw [inverts_eq_count, count_eq_zero.mpr hcore]
  rw [preoprCalc_of_applyAll hops hv h]
  cases gives_of_applyAll hcore h with
  | self => exact absurd rfl hops
  | num _ hnots hi hj =>
    have hhead : (core.head hops).char ≠ '~' := by
      intro hc
      have hmem := head_mem hops
      cases hop : core.head hops with
      | invert => exact hcore (hop ▸ hmem)
      | _ => simp [hop, Op.char] at hc
    rw [if_neg (by simp [flagsOf, Count.flags, hnots]),
      if_neg (by simpa [flagsOf, Count.flags] using hhead)]
    exact calcNum_of_sign hi hj
  | @not ops =>
    rw [if_pos (by simp [flagsOf, Count.flags, tally])]
    simp [calcBool, flagsOf, Count.flags, hinv, Op.char]
  | @signs op ops hop hnots =>
    have hsign : op.char = '-' ∨ op.char = '+' := by
      cases op <;> simp_all [Op.char]
    have hnots' : (tally (op :: ops)).nots ≠ 0 := by
      cases op <;> simp_all [tally]
    rw [if_pos (by simpa [flagsOf, Count.flags] using hnots')]
    rcases hsign with hsign | hsign <;>
      simp [calcBool, flagsOf, Count.flags, hinv, hsign, signed]

theorem flagsOf_inverts (k : ℕ) (hcore : Op.invert ∉ core)
    (hops : replicate (k + 1) .invert ++ core ≠ []) :
    ∃ chkNum isFalse, flagsOf (replicate (k + 1) .invert ++ core) hops =
      { isFalse, chkNum, isBool := (tally core).nots ≠ 0, negative := (tally core).negative % 2 = 1,
        asNum := true, bitInv := (k + 1) % 2 = 1, bitwise := true } := by
  have hinv : (tally core).inverts = 0 := by
    rw [inverts_eq_count, count_eq_zero.mpr hcore]
  refine ⟨(flagsOf _ hops).chkNum, (flagsOf _ hops).isFalse, ?_⟩
  simp [flagsOf, Count.flags, tally_inverts, hinv, Op.char]

theorem preoprCalc_inverts (k : ℕ) (hcore : Op.invert ∉ core) (hv : v.tp ≠ .float)
    (hops : replicate (k + 1) .invert ++ core ≠ [])
    (hgood : ¬Bad (replicate (k + 1) .invert ++ core) v)
    (h : applyAll E typeOf thingN runAt (replicate (k + 1) .invert ++ core) v = .ok w) :
    preoprCalc E typeOf thingN runAt (flagsOf _ hops) v = .ok w := by
  rw [preoprCalc_of_applyAll hops hv h]
  rw [applyAll_append] at h
  cases hu : applyAll E typeOf thingN runAt core v with
  | error e =>
    rw [hu] at h
    exact nomatch h
  | ok u =>
    rw [hu, Except.bind, applyAll_inverts] at h
    cases hi : num u with
    | none => simp [hi, typeError] at h
    | some i =>
      rw [hi] at h
      obtain rfl := Except.ok.inj h
      obtain ⟨chkNum, isFalse, hflags⟩ := flagsOf_inverts k hcore hops
      rw [hflags, notsOf_inverts]
      obtain ⟨hnots, i₀, hi₀, hsign⟩ | ⟨hnots, rfl⟩ := (gives_of_applyAll hcore hu).num_cases hi
      · rw [if_neg (by simp [hnots]), if_pos rfl, calcBitwise_of_sign hi₀ hsign]
        · simp
        · rintro ⟨hbit, hneg, rfl⟩
          have hnot : Op.not ∉ core := by rwa [nots_eq_count, count_eq_zero] at hnots
          rw [decide_eq_true_eq] at hbit hneg
          rw [negative_eq_count hnot] at hneg
          refine hgood ⟨by simp [hnot], ?_, by simpa [count_replicate] using hneg, rfl⟩
          simpa [count_eq_zero.mpr hcore] using hbit
      · rw [if_pos (by simpa using hnots)]
        by_cases hk : (k + 1) % 2 = 1 <;> simp [calcBool, signed, hk]

theorem preoprCalc_of_ok (hops : ops ≠ []) (hgr : Grammar ops) (hv : v.tp ≠ .float)
    (hgood : ¬Bad ops v) (h : applyAll E typeOf thingN runAt ops v = .ok w) :
    preoprCalc E typeOf thingN runAt (flagsOf ops hops) v = .ok w := by
  obtain ⟨k, core, rfl, hcore⟩ := hgr
  cases k with
  | zero => exact preoprCalc_core hops hcore hv h
  | succ k => exact preoprCalc_inverts k hcore hv hops hgood h

theorem num_of_apply (h : apply E typeOf thingN runAt op v = .ok w) : num w ≠ none := by
  cases op with
  | not =>
    obtain rfl := Except.ok.inj h
    simp [num]
  | neg =>
    obtain ⟨i, -, -, rfl⟩ := apply_neg h
    simp [num]
  | pos =>
    obtain ⟨i, -, rfl⟩ := apply_pos h
    simp [num]
  | invert =>
    cases hi : num v with
    | none => simp [apply, hi, typeError] at h
    | some i =>
      simp only [apply, hi] at h
      obtain rfl := Except.ok.inj h
      simp [num]

theorem apply_typeError (h : apply E typeOf thingN runAt op v = .error e)
    (he : e.nr = .typeError) : op ≠ .not ∧ num v = none := by
  cases hi : num v with
  | none => cases op <;> simp_all [apply]
  | some i =>
    -- only a negation fails for a number
    cases op with
    | neg =>
      simp only [apply, hi] at h
      unfold negInt at h
      split_ifs at h
      · obtain rfl := Except.error.inj h
        exact nomatch he
      · exact nomatch h
    | _ => simp [apply, hi] at h

/-- A type error is the one of the last operator. -/
theorem applyAll_typeError (hops : ops ≠ []) (h : applyAll E typeOf thingN runAt ops v = .error e)
    (he : e.nr = .typeError) : ops.getLast hops ≠ .not ∧ num v = none := by
  induction ops generalizing e with
  | nil => exact absurd rfl hops
  | cons op ops ih =>
    rw [applyAll] at h
    by_cases hnil : ops = []
    · subst hnil
      exact apply_typeError h he
    · rw [getLast_cons hnil]
      cases hu : applyAll E typeOf thingN runAt ops v with
      | error e' =>
        rw [hu] at h
        obtain rfl : e' = e := Except.error.inj h
        exact ih hnil hu he
      | ok u =>
        rw [hu] at h
        obtain ⟨op', ops', rfl⟩ := exists_cons_of_ne_nil hnil
        rw [applyAll] at hu
        cases hu' : applyAll E typeOf thingN runAt ops' v with
        | error e' =>
          rw [hu'] at hu
          exact nomatch hu
        | ok u' =>
          rw [hu'] at hu
          exact absurd (apply_typeError h he).2 (num_of_apply hu)

theorem preoprCalc_typeError (hops : ops ≠ []) (hv : v.tp ≠ .float)
    (h : applyAll E typeOf thingN runAt ops v = .error e) (he : e.nr = .typeError) :
    ∃ e', preoprCalc E typeOf thingN runAt (flagsOf ops hops) v = .error e' ∧
      e'.nr = .typeError := by
  obtain ⟨hlast, hnum⟩ := applyAll_typeError hops h he
  have hguard := And.intro ((chkNum_flagsOf hops).mpr hlast) ((num_eq_none_iff hv).mp hnum)
  rw [preoprCalc, if_pos hguard]
  exact ⟨_, rfl, rfl⟩

theorem Gives.num_ne_minValue {b : Bool} (h : Gives thingN runAt (.bool b) ops w) :
    ∃ i, Preopr.num w = some i ∧ i ≠ Int64.minValue := by
  have hbool : ∀ b, vbool b ≠ Int64.minValue ∧ -vbool b ≠ Int64.minValue := by decide
  cases h with
  | self => exact ⟨_, rfl, (hbool b).1⟩
  | @num _ _ j _ _ hi hj =>
    obtain rfl := Option.some.inj hi
    refine ⟨j, rfl, ?_⟩
    unfold sign at hj
    split_ifs at hj
    · rw [(negInt_eq_ok hj).2]
      exact (hbool b).2
    · rw [← Except.ok.inj hj]
      exact (hbool b).1
  | not => exact ⟨_, rfl, (hbool _).1⟩
  | signs =>
    refine ⟨_, rfl, ?_⟩
    unfold signed
    split_ifs
    · exact (hbool _).2
    · exact (hbool _).1

theorem applyAll_bool (E : Env) (typeOf : ℕ → Option TypeId) (thingN runAt : ℕ → ℕ) (b : Bool)
    (hcore : Op.invert ∉ core) : ∃ w, applyAll E typeOf thingN runAt core (.bool b) = .ok w := by
  induction core with
  | nil => exact ⟨_, rfl⟩
  | cons op core ih =>
    rw [mem_cons, not_or] at hcore
    obtain ⟨u, hu⟩ := ih hcore.2
    obtain ⟨i, hi, hmin⟩ := (gives_of_applyAll hcore.2 hu).num_ne_minValue
    rw [applyAll, hu]
    cases op with
    | invert => exact absurd rfl hcore.1
    | not => exact ⟨_, rfl⟩
    | neg => exact ⟨.int (-i), by simp [Except.bind, apply, hi, negInt, hmin, Except.map]⟩
    | pos => exact ⟨.int i, by simp [Except.bind, apply, hi]⟩

/-- One by one the result is 0, as -1 is inverted; with the flags it is -2. -/
theorem not_preoprCalc_of_bad (E : Env) (typeOf : ℕ → Option TypeId) (thingN runAt : ℕ → ℕ)
    (hops : ops ≠ []) (hgr : Grammar ops) (hbad : Bad ops v) :
    applyAll E typeOf thingN runAt ops v = .ok (.int 0) ∧
      preoprCalc E typeOf thingN runAt (flagsOf ops hops) v = .ok (.int (-2)) := by
  obtain ⟨k, core, rfl, hcore⟩ := hgr
  obtain ⟨hnot, hinv, hneg, rfl⟩ := hbad
  have hcount : (replicate k Op.invert ++ core).count .invert = k := by
    simp [count_eq_zero.mpr hcore]
  rw [hcount] at hinv
  obtain ⟨k, rfl⟩ : ∃ m, k = m + 1 := ⟨k - 1, by omega⟩
  have hnotcore : Op.not ∉ core := fun h => hnot (mem_append_right _ h)
  have hnegative : (tally core).negative % 2 = 1 := by
    rw [negative_eq_count hnotcore]
    simpa [count_replicate] using hneg
  have hnots : (tally core).nots = 0 := by
    rw [nots_eq_count, count_eq_zero.mpr hnotcore]
  obtain ⟨u, hu⟩ := applyAll_bool E typeOf thingN runAt true hcore
  obtain ⟨i, hi, -⟩ := (gives_of_applyAll hcore hu).num_ne_minValue
  obtain ⟨-, i₀, hi₀, hsign⟩ | ⟨h, -⟩ := (gives_of_applyAll hcore hu).num_cases hi
  · obtain rfl := Option.some.inj hi₀
    rw [decide_eq_true hnegative] at hsign
    obtain ⟨-, rfl⟩ := negInt_eq_ok (i := 1) hsign
    have happly : applyAll E typeOf thingN runAt (replicate (k + 1) .invert ++ core)
        (.bool true) = .ok (.int 0) := by
      rw [applyAll_append, hu, Except.bind, applyAll_inverts, hi]
      simp only [hinv, if_true]
      rfl
    refine ⟨happly, ?_⟩
    obtain ⟨chkNum, isFalse, hflags⟩ := flagsOf_inverts k hcore hops
    rw [preoprCalc_of_applyAll hops (by simp [Val.tp]) happly, hflags, if_neg (by simp [hnots]),
      if_pos rfl, calcBitwise, if_pos (by simpa using hinv), if_pos (by simpa using hnegative)]
    rfl
  · exact absurd hnots h

/-- The flags give what the operators give one by one, unless an odd number of `~` comes before
an odd number of `-` and the operand is `true`. -/
theorem preopr_right_to_left_iff (E : Env) (typeOf : ℕ → Option TypeId) (thingN runAt : ℕ → ℕ)
    {s : List Char} {ops : List Op} (hs : Text s ops) (hgr : Grammar ops) {v : Val}
    (hv : v.tp ≠ .float) :
    ((∀ w, applyAll E typeOf thingN runAt ops v = .ok w →
        preoprCalc E typeOf thingN runAt (bind s) v = .ok w) ∧
      ∀ e, applyAll E typeOf thingN runAt ops v = .error e → e.nr = .typeError →
        ∃ e', preoprCalc E typeOf thingN runAt (bind s) v = .error e' ∧ e'.nr = .typeError) ↔
    ¬Bad ops v := by
  have hbind : bind s = flagsOf ops hs.ne_nil := bind_text hs
  rw [hbind]
  constructor
  · rintro ⟨h, -⟩ hbad
    obtain ⟨happly, hcalc⟩ := not_preoprCalc_of_bad E typeOf thingN runAt hs.ne_nil hgr hbad
    rw [h _ happly] at hcalc
    simp at hcalc
  · intro hgood
    exact ⟨fun w h => preoprCalc_of_ok hs.ne_nil hgr hv hgood h,
      fun e h he => preoprCalc_typeError hs.ne_nil hv h he⟩

end Calc

/-- `- !! 42` is -1. -/
theorem preopr_not_not : preoprCalc default (fun _ => none) (fun _ => 0) (fun _ => 0)
    (bind ['-', ' ', '!', '!']) (.int 42) = .ok (.int (-1)) := by
  have hs : Text ['-', ' ', '!', '!'] [.neg, .not, .not] :=
    .cons .neg [' '] (by simp [isSpace]) (.cons .not [] (by simp) (.single .not))
  have hgr : Grammar [.neg, .not, .not] := ⟨0, _, rfl, by decide⟩
  have hiff := preopr_right_to_left_iff default (fun _ => none) (fun _ => 0) (fun _ => 0) hs hgr
    (v := .int 42) (by decide)
  exact (hiff.mpr (fun h => nomatch h.2.1)).1 _ rfl

/-- `~-true` is -2, and 0 when `-` is applied before `~`. -/
theorem preopr_invert_neg_true :
    preoprCalc default (fun _ => none) (fun _ => 0) (fun _ => 0) (bind ['~', '-']) (.bool true) =
      .ok (.int (-2)) ∧
    applyAll default (fun _ => none) (fun _ => 0) (fun _ => 0) [.invert, .neg] (.bool true) =
      .ok (.int 0) :=
  ⟨rfl, rfl⟩

end ThingsDB.Preopr
