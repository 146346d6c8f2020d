import ThingsDB.Opr
import ThingsDB.Util.Vec

/-!
# Lists

`ti_varr_t` as the value of a property, and the functions which put a value in it.
The specification of the elements is the one of `ti_varr_spec`: the nested
specification of the field, or `any` for a list of a thing which has no type.
-/

namespace ThingsDB.Lists

open Util

instance : Inhabited Val := ⟨.nil⟩

structure Varr where
  flags : ArrFlags
  vec : List Val

def setMayFlags (flags source : ArrFlags) : ArrFlags :=
  { flags with mht := flags.mht || source.mht, mhr := flags.mhr || source.mhr }

def vsetToTuple (imap : Imap) : ArrFlags × List Val :=
  (⟨true, imap.things ≠ [], false⟩, imap.things.map .thing)

/-- The callbacks `to_arr_cb` of the types: what is put in an array with the flags, and
the flags then. -/
def toArr (flags : ArrFlags) : Val → ArrFlags × Val
  | .thing t => ({ flags with mht := true }, .thing t)
  | .wrap type t => ({ flags with mht := true }, .wrap type t)
  | .wano spec t => ({ flags with mht := true }, .wano spec t)
  | .room id => ({ flags with mhr := true }, .room id)
  | .arr f vec => (setMayFlags flags f, .arr { f with tuple := true } vec)
  | .set imap =>
    (setMayFlags flags (vsetToTuple imap).1, .arr (vsetToTuple imap).1 (vsetToTuple imap).2)
  | .member e name x => ({ flags with mht := flags.mht || x.tp = .thing }, .member e name x)
  | .future _ | .module _ => (flags, .nil)
  | v => (flags, v)

section Checked

variable (E : Env) (kind : ℕ → Kind) (spec : Spec)

def nestedSpecErr (v : Val) : Option Ex :=
  match checkNestedVal E kind spec v with
  | .success => none
  | .typeError =>
    some ⟨.typeError, "type `" ++ v.typeStr E kind ++ "` is not allowed in restricted array"⟩
  | .utf8Error => some ⟨.valueError, "array is restricted to UTF8 string values"⟩
  | .uintError =>
    some ⟨.valueError, "array is restricted to integer values greater than or equal to 0"⟩
  | .pintError => some ⟨.valueError, "array is restricted to positive integer values"⟩
  | .nintError => some ⟨.valueError, "array is restricted to negative integer values"⟩
  | .emailError => some ⟨.valueError, "array is restricted to email addresses"⟩
  | .urlError => some ⟨.valueError, "array is restricted to URL's"⟩
  | .telError => some ⟨.valueError, "array is restricted to telephone numbers"⟩

/-- `ti_val_varr_prepare`. The second check may accept a value which the first one does
not; the value is then left as it is. -/
def prepare (flags : ArrFlags) (v : Val) : Except Ex (ArrFlags × Val) :=
  if v.isSpec E kind spec then .ok (toArr flags v)
  else
    match nestedSpecErr E kind spec v with
    | some e => .error e
    | none => .ok (flags, v)

def varrSet (l : Varr) (v : Val) (idx : ℕ) : Except Ex Varr :=
  (prepare E kind spec l.flags v).map fun r => ⟨r.1, l.vec.set idx r.2⟩

def varrAppend (l : Varr) (v : Val) : Except Ex Varr :=
  (prepare E kind spec l.flags v).map fun r => ⟨r.1, l.vec ++ [r.2]⟩

def varrInsert (l : Varr) (v : Val) (i : ℕ) : Except Ex Varr :=
  (prepare E kind spec l.flags v).map fun r => ⟨r.1, l.vec.insertIdx i r.2⟩

def varrFill (l : Varr) (v : Val) : Except Ex Varr :=
  (prepare E kind spec l.flags v).map fun r => ⟨r.1, l.vec.map fun _ => r.2⟩

end Checked
end ThingsDB.Lists
