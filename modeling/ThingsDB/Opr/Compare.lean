import ThingsDB.Opr

/-!
# Comparing values

`ti_opr_eq` and `ti_opr_compare`. Both switch on the types of the two operands, and each case reads
an operand as a value of some type. A result is `none` where a case reads an operand as a value of
another type than its own, so that it depends on memory which is not part of the value.

Equality is that of addresses for the types which have no case, so values are looked at together
with their addresses.
-/

namespace ThingsDB.Opr

open Util

inductive As where
  | int
  | float
  | bool
  | datetime
  | raw
  | regex
  | wrap
  | set
  | error
  | ano
  | wano
  deriving DecidableEq, Repr

/-- The switch of `ti__opr_eq_`, apart from two lists. -/
def eqCase : Tp → Tp → Option (As × As)
  | .int, .int => some (.int, .int)
  | .int, .float => some (.int, .float)
  | .int, .bool => some (.int, .bool)
  | .float, .int => some (.float, .int)
  | .float, .float => some (.float, .float)
  | .float, .bool => some (.float, .bool)
  | .bool, .int => some (.bool, .int)
  | .bool, .float => some (.bool, .float)
  | .datetime, .datetime => some (.datetime, .datetime)
  | .name, .str | .name, .bytes | .str, .datetime | .str, .name | .str, .str | .str, .bytes
  | .bytes, .name | .bytes, .str | .bytes, .bytes => some (.raw, .raw)
  | .regex, .regex => some (.regex, .regex)
  | .wrap, .wrap => some (.wrap, .wrap)
  | .set, .set => some (.set, .set)
  | .error, .error => some (.error, .error)
  | .ano, .ano => some (.ano, .ano)
  | .wano, .wano => some (.wano, .wano)
  | _, _ => none

/-- The switch of `ti_opr_compare`, apart from members of enumerators. -/
def compareCase : Tp → Tp → Option (As × As)
  | .int, .int => some (.int, .int)
  | .int, .float => some (.int, .float)
  | .int, .bool => some (.int, .bool)
  | .float, .int => some (.float, .int)
  | .float, .float => some (.float, .float)
  | .float, .bool => some (.float, .bool)
  | .bool, .int => some (.bool, .int)
  | .bool, .float => some (.bool, .float)
  | .bool, .bool => some (.bool, .bool)
  | .datetime, .datetime => some (.datetime, .datetime)
  | .name, .name | .name, .str | .name, .bytes | .str, .datetime | .str, .name | .str, .str
  | .str, .bytes | .bytes, .name | .bytes, .str | .bytes, .bytes => some (.raw, .raw)
  | _, _ => none

/-- `OPR_MEMBER_NIL ... OPR_MEMBER_ERROR` -/
def memberCase : Tp → Bool
  | .nil | .int | .float | .bool | .datetime | .name | .str | .bytes | .regex | .thing | .wrap
  | .room | .task | .arr | .set | .error => true
  | _ => false

inductive Cell where
  | num (i : Int64)
  | float (f : Float)
  | time (ts : ℤ)
  | raw (data : Raw)
  | regex (pattern : Raw)
  | wrap (type : TypeId) (t : ℕ)
  | set (imap : Imap)
  | error (nr : ℤ)
  | ano (spec : Raw)
  | wano (spec : Raw) (t : ℕ)

def As.read : As → Val → Option Cell
  | .int, .int i => some (.num i)
  | .float, .float f => some (.float f)
  | .bool, .bool b => some (.num (vbool b))
  | .datetime, .datetime ts _ => some (.time ts)
  | .raw, .name d => some (.raw d)
  | .raw, .str d => some (.raw d)
  | .raw, .bytes d => some (.raw d)
  | .regex, .regex p => some (.regex p)
  | .wrap, .wrap type t => some (.wrap type t)
  | .set, .set m => some (.set m)
  | .error, .error nr _ => some (.error nr)
  | .ano, .ano spec => some (.ano spec)
  | .wano, .wano spec t => some (.wano spec t)
  | _, _ => none

namespace Cell

/-- Sets are compared by the addresses of their things. `imap_eq` overlooks only keys below 1056, as
only the nodes of the map itself are compared without their counts. -/
def eq : Cell → Cell → Bool
  | num x, num y => x = y
  | num x, float y => x.toFloat == y
  | float x, num y => x == y.toFloat
  | float x, float y => x == y
  | time x, time y => x = y
  | raw x, raw y => x = y
  | regex x, regex y => x = y
  | wrap type t, wrap type' t' => type = type' && t = t'
  | set m, set m' => m.things.all (· ∈ m') && m'.things.all (· ∈ m)
  | error nr, error nr' => nr = nr'
  | ano spec, ano spec' => spec = spec'
  | wano spec t, wano spec' t' => t = t' && spec = spec'
  | _, _ => false

end Cell

section Equality

/-- A value at its address; a list has its elements by their addresses. -/
inductive Obj where
  | leaf (addr : ℕ) (v : Val) (notArr : v.tp ≠ .arr)
  | arr (addr : ℕ) (flags : ArrFlags) (vec : List Obj)

namespace Obj

def addr : Obj → ℕ
  | leaf addr _ _ => addr
  | arr addr _ _ => addr

mutual

def val : Obj → Val
  | leaf _ v _ => v
  | arr _ flags vec => .arr flags (vals vec)

def vals : List Obj → List Val
  | [] => []
  | o :: os => o.val :: vals os

end

end Obj

/-- The cases of `ti__opr_eq_` for values which are not lists. -/
def eqLeaf (v w : Val) : Option Bool :=
  match eqCase v.tp w.tp with
  | none => some false
  | some (x, y) => (x.read v).bind fun c => (y.read w).map c.eq

mutual

def eq : Obj → Obj → Option Bool
  | .leaf addr v _, .leaf addr' w _ => if addr = addr' then some true else eqLeaf v w
  | .arr addr _ va, .arr addr' _ vb =>
    if addr = addr' then some true else if va.length = vb.length then eqVec va vb else some false
  | .leaf addr _ _, .arr addr' _ _ => some (addr = addr')
  | .arr addr _ _, .leaf addr' _ _ => some (addr = addr')

/-- The loop of `ti__varr_eq`. -/
def eqVec : List Obj → List Obj → Option Bool
  | a :: va, b :: vb =>
    match eq a b with
    | some true => eqVec va vb
    | r => r
  | _, _ => some true

end

end Equality

section Order

def order (x y : ℤ) : ℤ := (if y < x then 1 else 0) - (if x < y then 1 else 0)

def orderFloat (x y : Float) : ℤ := (if y < x then 1 else 0) - (if x < y then 1 else 0)

/-- `memcmp` for as many bytes as both have. -/
def memcmp : Raw → Raw → ℤ
  | x :: xs, y :: ys => if x = y then memcmp xs ys else (x.toNat : ℤ) - y.toNat
  | _, _ => 0

def rawCmp (a b : Raw) : ℤ :=
  if memcmp a b ≠ 0 ∨ a.length = b.length then memcmp a b
  else if b.length < a.length then ((a.drop b.length).headD 0).toNat
  else -(((b.drop a.length).headD 0).toNat : ℤ)

def Cell.compare : Cell → Cell → ℤ
  | num x, num y => order x.toInt y.toInt
  | num x, float y => orderFloat x.toFloat y
  | float x, num y => orderFloat x y.toFloat
  | float x, float y => orderFloat x y
  | time x, time y => order x y
  | raw x, raw y => rawCmp x y
  | _, _ => 0

/-- The result of a comparison: an error, or a number, or one which depends on other memory. -/
abbrev Compared : Type := Except Ex (Option ℤ)

variable (E : Env) (typeOf : ℕ → Option TypeId)

def notSupported (a b : Val) : Compared :=
  .error ⟨.typeError, "`<` not supported between `" ++ a.valStr E typeOf ++ "` and `" ++
    b.valStr E typeOf ++ "`"⟩

/-- The cases of `ti_opr_compare` if the first operand is not a member. -/
def compareRight (a : Val) : Val → Compared
  | .member _ _ w => compareRight a w
  | b =>
    match compareCase a.tp b.tp with
    | none => notSupported E typeOf a b
    | some (x, y) => .ok ((x.read a).bind fun c => (y.read b).map c.compare)

def compare : Val → Val → Compared
  | .member enum name v, b =>
    match b with
    | .member _ _ w => compare v w
    | b => if memberCase b.tp then compare v b else notSupported E typeOf (.member enum name v) b
  | a, b => compareRight E typeOf a b

end Order

section Cases

def tps : List Tp :=
  [.nil, .int, .float, .bool, .datetime, .name, .str, .bytes, .regex, .thing, .wrap, .room, .task,
    .arr, .set, .error, .member, .mpdata, .closure, .ano, .wano, .future, .module]

theorem mem_tps (t : Tp) : t ∈ tps := by
  cases t <;> decide

def As.fits : As → Tp → Bool
  | .int, .int | .float, .float | .bool, .bool | .datetime, .datetime | .regex, .regex
  | .wrap, .wrap | .set, .set | .error, .error | .ano, .ano | .wano, .wano => true
  | .raw, .name | .raw, .str | .raw, .bytes => true
  | _, _ => false

theorem read_isSome (x : As) (v : Val) : (x.read v).isSome = x.fits v.tp := by
  cases v <;> cases x <;> rfl

/-- A string and a date-time, in this order. -/
def Confuses (s t : Tp) : Prop := s = .str ∧ t = .datetime

instance (s t : Tp) : Decidable (Confuses s t) := inferInstanceAs (Decidable (_ ∧ _))

/-- The switch of `ti__opr_eq_` is the same with the operands the other way around, but for a string
and a date-time. -/
theorem eqCase_swap {s t : Tp} (h : ¬ Confuses s t) (h' : ¬ Confuses t s) :
    eqCase t s = (eqCase s t).map Prod.swap := by
  have hall : ∀ s ∈ tps, ∀ t ∈ tps, ¬ Confuses s t → ¬ Confuses t s →
      eqCase t s = (eqCase s t).map Prod.swap := by decide
  exact hall s (mem_tps s) t (mem_tps t) h h'

theorem eqCase_fits {s t : Tp} {x : As × As} (hx : eqCase s t = some x) (h : ¬ Confuses s t) :
    x.1.fits s ∧ x.2.fits t := by
  have hall : ∀ s ∈ tps, ∀ t ∈ tps, ¬ Confuses s t →
      (eqCase s t).all (fun x => x.1.fits s && x.2.fits t) = true := by decide
  have := hall s (mem_tps s) t (mem_tps t) h
  simpa [hx] using this

def comparable : Tp → Bool
  | .int | .float | .bool | .datetime | .name | .str | .bytes => true
  | _ => false

theorem comparable_of_compareCase {s t : Tp} (h : (compareCase s t).isSome) :
    comparable s ∧ comparable t := by
  have hall : ∀ s ∈ tps, ∀ t ∈ tps, (compareCase s t).isSome = true →
      comparable s = true ∧ comparable t = true := by decide
  exact hall s (mem_tps s) t (mem_tps t) h

end Cases

end ThingsDB.Opr
