import ThingsDB.Util.Imap
import Mathlib.Tactic

/-!
# Values

`ti_val_t` with the types of `ti_val_enum`. Things are referred to by a number which
is not their id, since not every thing has one; wrapped things carry the type they
are wrapped with. Templates are left out as they are not values of anything.
-/

namespace ThingsDB

open Util

/-- The type of an instance, below `TI_SPEC_ANY`. -/
abbrev TypeId : Type := Fin 0x4000

instance TypeId.neZero : NeZero 0x4000 := ⟨by decide⟩

/-- The id of an enumerator, below `TI_ENUM_ID_FLAG`. -/
abbrev EnumId : Type := Fin 0x2000

/-- The bytes of `ti_raw_t`. -/
abbrev Raw : Type := List UInt8

/-- The flags of `ti_varr_t`: an array is a tuple, may have things, may have rooms. -/
structure ArrFlags where
  tuple : Bool
  mht : Bool
  mhr : Bool
  deriving DecidableEq, Repr

inductive Val where
  | nil
  | int (i : Int64)
  | float (f : Float)
  | bool (b : Bool)
  | datetime (ts : ℤ) (timeval : Bool)
  | name (data : Raw)
  | str (data : Raw)
  | bytes (data : Raw)
  | regex (pattern : Raw)
  | thing (t : ℕ)
  | wrap (type : TypeId) (t : ℕ)
  | room (id : ℕ)
  | task (id : ℕ)
  | arr (flags : ArrFlags) (vec : List Val)
  | set (imap : Imap)
  | error (nr : ℤ) (msg : Raw)
  | member (enum : EnumId) (name : Raw) (val : Val)
  | mpdata (data : Raw)
  | closure (text : Raw)
  | ano (spec : Raw)
  | wano (spec : Raw) (t : ℕ)
  | future (id : ℕ)
  | module (id : ℕ)

/-- `ti_val_enum` -/
inductive Tp where
  | nil
  | int
  | float
  | bool
  | datetime
  | name
  | str
  | bytes
  | regex
  | thing
  | wrap
  | room
  | task
  | arr
  | set
  | error
  | member
  | mpdata
  | closure
  | ano
  | wano
  | future
  | module
  deriving DecidableEq, Repr

/-- What the functions on values read elsewhere: the names of types and enumerators,
how raw data is shown, and the tests of strings. -/
structure Env where
  typeName : TypeId → String
  enumName : EnumId → String
  text : Raw → String
  /-- The format `%f`. -/
  fmtFloat : Float → String
  /-- `strx_is_utf8n` -/
  isUtf8 : Raw → Bool
  /-- `ti_regex_test_or_empty` with the pattern for an email address. -/
  isEmail : Raw → Bool
  isUrl : Raw → Bool
  isTel : Raw → Bool
  /-- `ti_regex_test` -/
  regexTest : Raw → Raw → Bool
  /-- `ti_name_is_valid_strn` -/
  nameIsValid : Raw → Bool
  deriving Inhabited

namespace Val

def tp : Val → Tp
  | nil => .nil
  | int _ => .int
  | float _ => .float
  | bool _ => .bool
  | datetime _ _ => .datetime
  | name _ => .name
  | str _ => .str
  | bytes _ => .bytes
  | regex _ => .regex
  | thing _ => .thing
  | wrap _ _ => .wrap
  | room _ => .room
  | task _ => .task
  | arr _ _ => .arr
  | set _ => .set
  | error _ _ => .error
  | member _ _ _ => .member
  | mpdata _ => .mpdata
  | closure _ => .closure
  | ano _ => .ano
  | wano _ _ => .wano
  | future _ => .future
  | module _ => .module

def data : Val → Raw
  | name d | str d | bytes d | mpdata d => d
  | _ => []

def isStr (v : Val) : Bool := v.tp = .str ∨ v.tp = .name

def isRaw (v : Val) : Bool := v.tp = .str ∨ v.tp = .name ∨ v.tp = .bytes ∨ v.tp = .mpdata

def isNumber (v : Val) : Bool := v.tp = .float ∨ v.tp = .int

def isDatetimeStrict : Val → Bool
  | datetime _ timeval => !timeval
  | _ => false

def isTimeval : Val → Bool
  | datetime _ timeval => timeval
  | _ => false

/-- `ti_val_str`, where `typeOf` is the type of a thing if it is an instance. -/
def valStr (E : Env) (typeOf : ℕ → Option TypeId) : Val → String
  | nil => "nil"
  | int _ => "int"
  | float _ => "float"
  | bool _ => "bool"
  | datetime _ timeval => if timeval then "timeval" else "datetime"
  | name _ | str _ => "str"
  | bytes _ => "bytes"
  | regex _ => "regex"
  | thing t => ((typeOf t).map E.typeName).getD "thing"
  | wrap type _ => "<" ++ E.typeName type ++ ">"
  | room _ => "room"
  | task _ => "task"
  | arr flags _ => if flags.tuple then "tuple" else "list"
  | set _ => "set"
  | error _ _ => "error"
  | member enum _ _ => E.enumName enum
  | mpdata _ => "mpdata"
  | closure _ => "closure"
  | ano _ => "<anonymous>"
  | wano _ _ => "<<anonymous>>"
  | future _ => "future"
  | module _ => "module"

/-- `ti_val_as_bool`, where `thingN` is the number of properties of a thing and `runAt` the
time of a task. -/
def asBool (thingN runAt : ℕ → ℕ) : Val → Bool
  | nil | error _ _ => false
  | int i => i ≠ 0
  | float f => f != 0.0
  | bool b => b
  | datetime _ _ | regex _ | closure _ | ano _ | future _ | module _ => true
  | name d | str d | bytes d | mpdata d => d ≠ []
  | thing t | wrap _ t | wano _ t => thingN t ≠ 0
  | room id => id ≠ 0
  | task id => runAt id ≠ 0
  | arr _ vec => !vec.isEmpty
  | set m => m.things ≠ []
  | member _ _ v => v.asBool thingN runAt

end Val
end ThingsDB
