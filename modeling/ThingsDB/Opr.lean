import ThingsDB.Spec
import ThingsDB.Relations.Ops

/-!
# Operators

`ti_opr_a_to_b` for the operators which can be combined with an assignment. A result
is `none` when C does not define what the operation does, as for the quotient of the
smallest integer and -1.
-/

namespace ThingsDB

open Util Relations.Schema

/-- The operators of `ti_opr_a_to_b`. -/
inductive OprToken where
  | mod
  | and
  | mul
  | add
  | sub
  | div
  | xor
  | or
  deriving DecidableEq, Repr

/-- The result of an operator: a value, an error, or undefined. -/
abbrev OprResult : Type := Option (Except Ex Val)

namespace Opr

def typeInt (i : Int64) : OprResult := some (.ok (.int i))

def typeFloat (f : Float) : OprResult := some (.ok (.float f))

def overflow : OprResult := some (.error ⟨.overflow, "integer overflow"⟩)

def zerodiv : OprResult := some (.error ⟨.zeroDiv, "division or modulo by zero"⟩)

/-- `VBOOL` as a number. -/
def vbool (b : Bool) : Int64 := if b then 1 else 0

def quot (x y : Int64) : Option Int64 :=
  if y = 0 ∨ x = Int64.minValue ∧ y = -1 then none else some (x / y)

def rem (x y : Int64) : Option Int64 :=
  if y = 0 ∨ x = Int64.minValue ∧ y = -1 then none else some (x % y)

def prod (x y : Int64) : Option Int64 :=
  if Int64.minValue.toInt ≤ x.toInt * y.toInt ∧ x.toInt * y.toInt ≤ Int64.maxValue.toInt then
    some (x * y)
  else none

def overflowCast (d : Float) : Bool := !(d ≥ -9223372036854775808.0 && d < 9223372036854775808.0)

/-- The types `+` can join, which does not include `mpdata`. -/
def isText (v : Val) : Bool := v.tp = .name ∨ v.tp = .str ∨ v.tp = .bytes

def rawCat (a b : Val) : Val :=
  if a.tp = .bytes ∨ b.tp = .bytes then .bytes (a.data ++ b.data) else .str (a.data ++ b.data)

section Tokens

variable (E : Env) (typeOf : ℕ → Option TypeId)

/-- The error for all other types, where `opr` is the operator in the message. -/
def unsupported (opr : String) (a b : Val) : OprResult :=
  some (.error ⟨.typeError, opr ++ " not supported between `" ++ a.valStr E typeOf ++ "` and `" ++
    b.valStr E typeOf ++ "`"⟩)

def add (a b : Val) : OprResult :=
  match a, b with
  | .int x, .int y =>
    if 0 < y ∧ Int64.maxValue - y < x ∨ y < 0 ∧ x < Int64.minValue - y then overflow
    else typeInt (x + y)
  | .int x, .float y => typeFloat (x.toFloat + y)
  | .int x, .bool y => if x = Int64.maxValue ∧ y then overflow else typeInt (x + vbool y)
  | .float x, .int y => typeFloat (x + y.toFloat)
  | .float x, .float y => typeFloat (x + y)
  | .float x, .bool y => typeFloat (x + (vbool y).toFloat)
  | .bool x, .int y => if x ∧ y = Int64.maxValue then overflow else typeInt (vbool x + y)
  | .bool x, .float y => typeFloat ((vbool x).toFloat + y)
  | .bool x, .bool y => typeInt (vbool x + vbool y)
  | a, b => if isText a ∧ isText b then some (.ok (rawCat a b)) else unsupported E typeOf "`+`" a b

/-- The case of two sets, where `pre` is `ti_field_vset_pre_assign` if the first one is
the value of a field. -/
def setSet (pre : Imap → Bool → Option Ex) (op : SetOp) (x y : Imap) : OprResult :=
  match pre (op.apply x y) op.doTypeCheck with
  | some e => some (.error e)
  | none => some (.ok (.set (op.apply x y)))

def sub (pre : Imap → Bool → Option Ex) (a b : Val) : OprResult :=
  match a, b with
  | .int x, .int y =>
    if y < 0 ∧ Int64.maxValue + y < x ∨ 0 < y ∧ x < Int64.minValue + y then overflow
    else typeInt (x - y)
  | .int x, .float y => typeFloat (x.toFloat - y)
  | .int x, .bool y => if x = Int64.minValue ∧ y then overflow else typeInt (x - vbool y)
  | .float x, .int y => typeFloat (x - y.toFloat)
  | .float x, .float y => typeFloat (x - y)
  | .float x, .bool y => typeFloat (x - (vbool y).toFloat)
  | .bool x, .int y =>
    if y = Int64.minValue ∨ x ∧ y = -Int64.maxValue then overflow else typeInt (vbool x - y)
  | .bool x, .float y => typeFloat ((vbool x).toFloat - y)
  | .bool x, .bool y => typeInt (vbool x - vbool y)
  | .set x, .set y => setSet pre .sub x y
  | a, b => unsupported E typeOf "`-`" a b

/-- The integers in `opr__mul`. The smallest integer is divided by the second one after
the first comparison. -/
def mulInt (x y : Int64) : OprResult :=
  if y = 0 then typeInt 0
  else if Int64.maxValue / y < x then overflow
  else
    match quot Int64.minValue y with
    | none => none
    | some q =>
      if x < q ∨ x = -1 ∧ y = Int64.minValue ∨ y = -1 ∧ x = Int64.minValue then overflow
      else (prod x y).bind typeInt

def mul (a b : Val) : OprResult :=
  match a, b with
  | .int x, .int y => mulInt x y
  | .int x, .float y => typeFloat (x.toFloat * y)
  | .int x, .bool y => typeInt (x * vbool y)
  | .float x, .int y => typeFloat (x * y.toFloat)
  | .float x, .float y => typeFloat (x * y)
  | .float x, .bool y => typeFloat (x * (vbool y).toFloat)
  | .bool x, .int y => typeInt (vbool x * y)
  | .bool x, .float y => typeFloat ((vbool x).toFloat * y)
  | .bool x, .bool y => typeInt (vbool x * vbool y)
  | a, b => unsupported E typeOf "`*`" a b

def div (a b : Val) : OprResult :=
  match a, b with
  | .int x, .int y =>
    if y = 0 then zerodiv
    else if x = Int64.maxValue ∧ y = -1 then overflow
    else (quot x y).bind typeInt
  | .int x, .float y => if y == 0.0 then zerodiv else typeFloat (x.toFloat / y)
  | .int x, .bool y => if y then typeInt (x / 1) else zerodiv
  | .float x, .int y => if y = 0 then zerodiv else typeFloat (x / y.toFloat)
  | .float x, .float y => if y == 0.0 then zerodiv else typeFloat (x / y)
  | .float x, .bool y => if y then typeFloat (x / 1.0) else zerodiv
  | .bool x, .int y => if y = 0 then zerodiv else (quot (vbool x) y).bind typeInt
  | .bool x, .float y => if y == 0.0 then zerodiv else typeFloat ((vbool x).toFloat / y)
  | .bool x, .bool y => if y then typeInt (vbool x / 1) else zerodiv
  | a, b => unsupported E typeOf "`/`" a b

def modInt (x y : Int64) : OprResult := if y = 0 then zerodiv else (rem x y).bind typeInt

def mod (a b : Val) : OprResult :=
  match a, b with
  | .int x, .int y => modInt x y
  | .int x, .float y => if overflowCast y then overflow else modInt x y.toInt64
  | .int x, .bool y => modInt x (vbool y)
  | .float x, .int y => if overflowCast x then overflow else modInt x.toInt64 y
  | .float x, .float y =>
    if overflowCast x ∨ overflowCast y then overflow else modInt x.toInt64 y.toInt64
  | .float x, .bool y => if overflowCast x then overflow else modInt x.toInt64 (vbool y)
  | .bool x, .int y => modInt (vbool x) y
  | .bool x, .float y => if overflowCast y then overflow else modInt (vbool x) y.toInt64
  | .bool x, .bool y => modInt (vbool x) (vbool y)
  | a, b => unsupported E typeOf "`%`" a b

/-- `opr__and`, `opr__or` and `opr__xor`, where `f` is the operator on integers and `opr`
the one in the message. -/
def bitwise (f : Int64 → Int64 → Int64) (op : SetOp) (opr : String)
    (pre : Imap → Bool → Option Ex) (a b : Val) : OprResult :=
  match a, b with
  | .int x, .int y => typeInt (f x y)
  | .int x, .bool y => typeInt (f x (vbool y))
  | .bool x, .int y => typeInt (f (vbool x) y)
  | .bool x, .bool y => typeInt (f (vbool x) (vbool y))
  | .set x, .set y => setSet pre op x y
  | a, b => unsupported E typeOf ("bitwise " ++ opr) a b

def and (pre : Imap → Bool → Option Ex) : Val → Val → OprResult :=
  bitwise E typeOf (· &&& ·) .and "`&`" pre

def or (pre : Imap → Bool → Option Ex) : Val → Val → OprResult :=
  bitwise E typeOf (· ||| ·) .or "`|`" pre

def xor (pre : Imap → Bool → Option Ex) : Val → Val → OprResult :=
  bitwise E typeOf (· ^^^ ·) .xor "`^`" pre

def aToB (pre : Imap → Bool → Option Ex) (a b : Val) : OprToken → OprResult
  | .mod => mod E typeOf a b
  | .and => and E typeOf pre a b
  | .mul => mul E typeOf a b
  | .add => add E typeOf a b
  | .sub => sub E typeOf pre a b
  | .div => div E typeOf a b
  | .xor => xor E typeOf pre a b
  | .or => or E typeOf pre a b

end Tokens

variable {E : Env} {typeOf : ℕ → Option TypeId} {pre : Imap → Bool → Option Ex} {a b : Val}

def Scalar (x : Val) : Prop := x.tp = .int ∨ x.tp = .float ∨ x.tp = .str ∨ x.tp = .bytes

/-- A result which is a value is one of these, or the set of two sets. -/
def Gives (pre : Imap → Bool → Option Ex) (a : Val) (r : OprResult) : Prop :=
  ∀ x, r = some (.ok x) → Scalar x ∨ ∃ (op : SetOp) (m m' : Imap), a = .set m ∧
    x = .set (op.apply m m') ∧ pre (op.apply m m') op.doTypeCheck = none

theorem gives_typeInt (i : Int64) : Gives pre a (typeInt i) := by
  rintro x hx
  obtain rfl : Val.int i = x := by simpa [typeInt] using hx
  exact .inl (.inl rfl)

theorem gives_typeFloat (f : Float) : Gives pre a (typeFloat f) := by
  rintro x hx
  obtain rfl : Val.float f = x := by simpa [typeFloat] using hx
  exact .inl (.inr (.inl rfl))

theorem gives_error (e : Ex) : Gives pre a (some (.error e)) := by
  simp [Gives]

theorem gives_bind (o : Option Int64) : Gives pre a (o.bind typeInt) := by
  cases o with
  | none => simp [Gives]
  | some i => exact gives_typeInt i

theorem gives_ite {c : Prop} [Decidable c] {r r' : OprResult} (h : Gives pre a r)
    (h' : Gives pre a r') : Gives pre a (if c then r else r') := by
  split_ifs
  · exact h
  · exact h'

theorem gives_rawCat : Gives pre a (some (.ok (rawCat a b))) := by
  intro x hx
  obtain rfl : rawCat a b = x := by simpa using hx
  unfold rawCat
  split_ifs
  · exact .inl (.inr (.inr (.inr rfl)))
  · exact .inl (.inr (.inr (.inl rfl)))

theorem gives_setSet {op : SetOp} {m m' : Imap} : Gives pre (.set m) (setSet pre op m m') := by
  intro x hx
  unfold setSet at hx
  split at hx
  · simp at hx
  · rename_i hpre
    obtain rfl : Val.set _ = x := by simpa using hx
    exact .inr ⟨op, m, m', rfl, rfl, hpre⟩

theorem gives_mulInt {x y : Int64} : Gives pre a (mulInt x y) := by
  unfold mulInt
  apply gives_ite
  · exact gives_typeInt 0
  · apply gives_ite
    · exact gives_error _
    · split
      · simp [Gives]
      · exact gives_ite (gives_error _) (gives_bind _)

theorem gives_modInt {x y : Int64} : Gives pre a (modInt x y) :=
  gives_ite (gives_error _) (gives_bind _)

theorem gives_bitwise {f : Int64 → Int64 → Int64} {op : SetOp} {opr : String} :
    Gives pre a (bitwise E typeOf f op opr pre a b) := by
  unfold bitwise
  split
  all_goals first
    | exact gives_typeInt _
    | exact gives_setSet
    | exact gives_error _

theorem gives_aToB {opr : OprToken} : Gives pre a (aToB E typeOf pre a b opr) := by
  cases opr with
  | and | or | xor => exact gives_bitwise
  | mod =>
    simp only [aToB, mod]
    split
    all_goals first
      | exact gives_modInt
      | exact gives_ite (gives_error _) gives_modInt
      | exact gives_error _
  | mul =>
    simp only [aToB, mul]
    split
    all_goals first
      | exact gives_mulInt
      | exact gives_typeInt _
      | exact gives_typeFloat _
      | exact gives_error _
  | add =>
    simp only [aToB, add]
    split
    all_goals first
      | exact gives_typeInt _
      | exact gives_typeFloat _
      | exact gives_ite (gives_error _) (gives_typeInt _)
      | exact gives_ite gives_rawCat (gives_error _)
  | sub =>
    simp only [aToB, sub]
    split
    all_goals first
      | exact gives_typeInt _
      | exact gives_typeFloat _
      | exact gives_ite (gives_error _) (gives_typeInt _)
      | exact gives_setSet
      | exact gives_error _
  | div =>
    simp only [aToB, div]
    split
    all_goals first
      | exact gives_ite (gives_error _) (gives_ite (gives_error _) (gives_bind _))
      | exact gives_ite (gives_error _) (gives_typeFloat _)
      | exact gives_ite (gives_typeInt _) (gives_error _)
      | exact gives_ite (gives_typeFloat _) (gives_error _)
      | exact gives_ite (gives_error _) (gives_bind _)
      | exact gives_error _

end Opr
end ThingsDB
