import ThingsDB.Ex
import Mathlib.Data.Nat.Notation

/-!
# Functions

The checks of the number of arguments which all functions share.
-/

namespace ThingsDB

def docSee (uri : String) : String := "; see https://docs.thingsdb.io/v1/" ++ uri

/-- `was` or `were`, by the number of arguments. -/
def wasGiven (nargs : ℕ) : String :=
  " but " ++ toString nargs ++ " " ++ (if nargs = 1 then "was" else "were") ++ " given"

def arguments (n : ℕ) : String := toString n ++ " argument" ++ (if n = 1 then "" else "s")

/-- The error of `fn_nargs`. -/
def nargsError (name doc : String) (n nargs : ℕ) : Ex :=
  ⟨.numArguments, "function `" ++ name ++ "` takes " ++ arguments n ++ wasGiven nargs ++ doc⟩

/-- The error of `fn_nargs_min`. -/
def nargsMinError (name doc : String) (mi nargs : ℕ) : Ex :=
  ⟨.numArguments, "function `" ++ name ++ "` requires at least " ++ arguments mi ++
    wasGiven nargs ++ doc⟩

def nargsMin (name doc : String) (mi nargs : ℕ) : Option Ex :=
  if nargs < mi then some (nargsMinError name doc mi nargs) else none

end ThingsDB
