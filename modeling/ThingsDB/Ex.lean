/-!
# Errors

`ex_t`: the number of an error and its message.
-/

namespace ThingsDB

/-- The errors of `ex_enum` which the modelled functions raise. -/
inductive ExEnum where
  | operation
  | numArguments
  | typeError
  | valueError
  | overflow
  | zeroDiv
  | lookupError
  | maxQuota
  | internal
  | memory
  deriving DecidableEq, Repr

structure Ex where
  nr : ExEnum
  msg : String
  deriving DecidableEq, Repr

end ThingsDB
