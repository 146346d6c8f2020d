import ThingsDB.Fn
import ThingsDB.Relations.Store

/-!
# Operations on related properties

Assignment, the functions `add`, `remove` and `clear` of a set, the in-place set
operators, and the two ways to make an instance out of another one. Each gives
the values afterwards, the tasks for the other nodes, and the error if there is
one.
-/

namespace ThingsDB.Relations

open Util

variable {φ τ : Type} [DecidableEq φ] [DecidableEq τ]

/-- A task for the thing `p` and its property `f`. -/
inductive Task (φ : Type) where
  | setAdd (p : ℕ) (f : φ) (ts : List ℕ)
  | setRemove (p : ℕ) (f : φ) (ts : List ℕ)
  | setClear (p : ℕ) (f : φ)
  | set (p : ℕ) (f : φ) (imap : Imap)

structure Outcome (φ : Type) where
  store : Store φ
  tasks : List (Task φ)
  error : Option Ex

namespace Schema

variable (S : Schema φ τ) (T : Things τ)

def valStr : Val τ → String
  | .nil => "nil"
  | .thing t => T.str t
  | .set _ _ => "set"
  | .other str => str

/-- The label `type_error` of `ti_field_make_assignable`. -/
def typeError (f : φ) (v : Val τ) : Ex :=
  ⟨.typeError, "mismatch in type `" ++ S.typeName f ++ "`; type `" ++ valStr T v ++
    "` is invalid for property `" ++ S.name f ++ "` with definition `" ++ S.specRaw f ++ "`"⟩

/-- The label `relation_error` of `ti_field_make_assignable`. -/
def relationError (f : φ) : Ex :=
  ⟨.typeError, "mismatch in type `" ++ S.typeName f ++ "` on property `" ++ S.name f ++
    "`; relations must be created using a property on a stored thing (a thing with an Id)"⟩

def setError (f : φ) : Ex :=
  ⟨.typeError, "mismatch in type `" ++ S.typeName f ++ "`; property `" ++ S.name f ++
    "` has definition `" ++ S.specRaw f ++
    "` but got a set with at least one thing of another type"⟩

/-- The checks of a set, the first of which is optional. -/
def setCheck (f : φ) (p : ℕ) (imap : Imap) (doTypeCheck : Bool) : Option Ex :=
  if doTypeCheck ∧ ∃ t ∈ imap.things, some (T.typeOf t) ≠ S.target f then some (S.setError f)
  else if S.rel f ≠ none ∧ T.stored p = false then some (S.relationError f)
  else none

/-- The walk over the new set: things which stay are taken out of the old set, and
the others are linked. -/
def walkSet (f g : φ) (p : ℕ) : List ℕ → Store φ → Store φ
  | [], s => s
  | t :: ts, s =>
    walkSet f g p ts (if t ∈ s f p then s.set f p ((s f p).pop t) else S.link s f g p t)

/-- `field__walk_unset_cb` for the given things. -/
def unlinkAll (g : φ) (p : ℕ) (ts : List ℕ) (s : Store φ) : Store φ :=
  ts.foldl (fun s t => S.delCb s g t p) s

/-- The relations when the set of `p` becomes `imap`. -/
def relate (s : Store φ) (f : φ) (p : ℕ) (imap : Imap) : Store φ :=
  match S.rel f with
  | none => s
  | some g =>
    let s := S.walkSet f g p imap.things s
    S.unlinkAll g p (s f p).things s

/-- The checks of `field__vset_assign`. -/
def vsetAssignCheck (f : φ) (p : ℕ) (spec : Option τ) (imap : Imap) : Option Ex :=
  if S.target f = none ∨ S.target f = spec ∨ imap.things = [] then none
  else S.setCheck T f p imap true

/-- The checks of `ti_field_vset_pre_assign`. -/
def vsetPreAssignCheck (f : φ) (p : ℕ) (imap : Imap) (doTypeCheck : Bool) : Option Ex :=
  if S.target f = none ∨ imap.things = [] then none else S.setCheck T f p imap doTypeCheck

def release (s : Store φ) (f g : φ) (p : ℕ) : Store φ :=
  match (s f p).things with
  | [] => s
  | o :: _ => S.delCb s g o p

/-- `ti_field_make_assignable` for a set, and for a nillable type. The value to store
comes with the other properties as they are then. -/
def makeAssignable (s : Store φ) (f : φ) (p : ℕ) (v : Val τ) : Except Ex (Store φ × Imap) :=
  if S.isSet f then
    match v with
    | .set spec imap =>
      match S.vsetAssignCheck T f p spec imap with
      | some e => .error e
      | none => .ok (S.relate s f p imap, imap)
    | v => .error (S.typeError T f v)
  else
    match v, S.rel f with
    | .nil, none => .ok (s, .empty)
    | .nil, some g => .ok (S.release s f g p, .empty)
    | .thing t, none =>
      if some (T.typeOf t) ≠ S.target f then .error (S.typeError T f (.thing t))
      else .ok (s, .single t)
    | .thing t, some g =>
      if some (T.typeOf t) ≠ S.target f then .error (S.typeError T f (.thing t))
      else if T.stored p = false then .error (S.relationError f)
      else .ok (S.link (S.release s f g p) f g p t, .single t)
    | v, _ => .error (S.typeError T f v)

/-- `do__name_assign` with `=`. -/
def nameAssign (s : Store φ) (p : ℕ) (f : φ) (v : Val τ) : Outcome φ :=
  match S.makeAssignable T s f p v with
  | .error e => ⟨s, [], some e⟩
  | .ok (s, m) => ⟨s.set f p m, if T.stored p then [.set p f m] else [], none⟩

/-- An argument of a call. It is evaluated when it is its turn, with the properties as they are
then, which it may change, and gives a value or the error which is raised instead. -/
abbrev Arg (φ τ : Type) : Type := Store φ → Store φ × Except Ex (Val τ)

def Arg.val (v : Val τ) : Arg φ τ := fun s => (s, .ok v)

/-- The next argument of `add` with the checks of `ti_vset_add_val`. -/
def addArg (f : φ) (p : ℕ) : Except Ex (Val τ) → Except Ex ℕ
  | .error e => .error e
  | .ok (.thing t) =>
    if S.target f = none then .ok t
    else if S.target f ≠ some (T.typeOf t) then
      .error ⟨.typeError, "type `" ++ T.str t ++ "` is not allowed in restricted set"⟩
    else if S.rel f ≠ none ∧ T.stored p = false then
      .error ⟨.typeError,
        "relations must be created using a property on a stored thing (a thing with an Id)"⟩
    else .ok t
  | .ok v => .error ⟨.typeError, "cannot add type `" ++ valStr T v ++ "` to a set"⟩

/-- The relation part of `ti_vset_add_val`. -/
def addRelation (s : Store φ) (f : φ) (p t : ℕ) : Store φ :=
  match S.rel f with
  | none => s
  | some g => if S.isSet g ∧ g = f ∧ t = p then s else S.link s f g p t

/-- `ti_vset_add_val` after the checks, with a Boolean for a thing which is new. -/
def vsetAdd (s : Store φ) (f : φ) (p t : ℕ) : Bool × Store φ :=
  let s := S.addRelation s f p t
  (decide (t ∉ s f p), s.set f p ((s f p).add t))

/-- The loop of `do__f_add`: the error, the values and the added things. -/
def addLoop (f : φ) (p : ℕ) : List (Arg φ τ) → Store φ → List ℕ → Option Ex × Store φ × List ℕ
  | [], s, added => (none, s, added)
  | arg :: args, s, added =>
    match S.addArg T f p (arg s).2 with
    | .error e => (some e, (arg s).1, added)
    | .ok t =>
      let r := S.vsetAdd (arg s).1 f p t
      addLoop f p args r.2 (if r.1 then added ++ [t] else added)

/-- The label `fail1` of `do__f_add`. The added things are popped, the last one first;
a thing which is not there any more is a null pointer. -/
def undoAdd (f : φ) (p : ℕ) : List ℕ → Store φ → Option (Store φ)
  | [], s => some s
  | t :: ts, s =>
    if t ∈ s f p then undoAdd f p ts (s.set f p ((s f p).pop t)) else none

def add (s : Store φ) (p : ℕ) (f : φ) (args : List (Arg φ τ)) : Option (Outcome φ) :=
  match nargsMin "add" (docSee "data-types/set/add") 1 args.length with
  | some e => some ⟨s, [], some e⟩
  | none =>
    match S.addLoop T f p args s [] with
    | (none, s, added) =>
      some ⟨s, if added ≠ [] ∧ T.stored p then [.setAdd p f added] else [], none⟩
    | (some e, s, added) => (undoAdd f p added.reverse s).map fun s => ⟨s, [], some e⟩

/-- The next argument of `remove`, where `narg` is its number. -/
def removeArg (narg : ℕ) : Except Ex (Val τ) → Except Ex ℕ
  | .error e => .error e
  | .ok (.thing t) => .ok t
  | .ok v =>
    .error ⟨.typeError, "function `remove` expects argument " ++ toString narg ++
      " to be of type `" ++ (if narg = 1 then "closure` or type `thing" else "thing") ++
      "` but got type `" ++ valStr T v ++ "` instead" ++ docSee "data-types/set/remove"⟩

/-- The loop of `do__f_remove_set` over its arguments. -/
def removeLoop (f : φ) (p : ℕ) :
    ℕ → List (Arg φ τ) → Store φ → List ℕ → Option Ex × Store φ × List ℕ
  | _, [], s, removed => (none, s, removed)
  | narg, arg :: args, s, removed =>
    let (s, v) := arg s
    match removeArg T narg v with
    | .error e => (some e, s, removed)
    | .ok t =>
      if t ∈ s f p then
        removeLoop f p (narg + 1) args (s.set f p ((s f p).pop t)) (removed ++ [t])
      else removeLoop f p (narg + 1) args s removed

/-- The label `fail2` of `do__f_remove_set`. -/
def undoRemove (f : φ) (p : ℕ) (removed : List ℕ) (s : Store φ) : Store φ :=
  removed.reverse.foldl (fun s t => s.set f p ((s f p).add t)) s

/-- The end of `do__f_remove_set`, when the things are popped. -/
def removeDone (s : Store φ) (p : ℕ) (f : φ) (removed : List ℕ) : Outcome φ :=
  ⟨match S.rel f with
    | none => s
    | some g => S.unlinkAll g p removed s,
    if removed ≠ [] ∧ T.stored p then [.setRemove p f removed] else [], none⟩

/-- `do__f_remove_set` with things. -/
def remove (s : Store φ) (p : ℕ) (f : φ) (args : List (Arg φ τ)) : Outcome φ :=
  match nargsMin "remove" (docSee "data-types/set/remove") 1 args.length with
  | some e => ⟨s, [], some e⟩
  | none =>
    match removeLoop T f p 1 args s [] with
    | (none, s, removed) => S.removeDone T s p f removed
    | (some e, s, removed) => ⟨undoRemove f p removed s, [], some e⟩

/-- A closure for the things of a set, which may change properties as well. -/
abbrev Closure (φ : Type) : Type := ℕ → Store φ → Store φ × Except Ex Bool

/-- `remove__walk`: what the closure selects, until the limit is reached. -/
def selectLoop (closure : Closure φ) (limit : ℤ) :
    List ℕ → Store φ → List ℕ → Option Ex × Store φ × List ℕ
  | [], s, removed => (none, s, removed)
  | t :: ts, s, removed =>
    match (closure t s).2 with
    | .error e => (some e, (closure t s).1, removed)
    | .ok b =>
      let removed := if b then removed ++ [t] else removed
      if (removed.length : ℤ) = limit then (none, (closure t s).1, removed)
      else selectLoop closure limit ts (closure t s).1 removed

/-- `do__f_remove_set` with a closure. The walk is over the things which are in the set when it
starts. -/
def removeIf (s : Store φ) (p : ℕ) (f : φ) (closure : Closure φ) (limit : ℤ) : Outcome φ :=
  match if limit = 0 then (none, s, []) else selectLoop closure limit (s f p).things s [] with
  | (some e, s, removed) => ⟨undoRemove f p removed s, [], some e⟩
  | (none, s, removed) =>
    S.removeDone T (removed.foldl (fun s t => s.set f p ((s f p).pop t)) s) p f removed

def vsetClear (s : Store φ) (p : ℕ) (f : φ) : Store φ :=
  (match S.rel f with
    | none => s
    | some g => S.unlinkAll g p (s f p).things s).set f p .empty

/-- `do__f_clear_set` -/
def clear (s : Store φ) (p : ℕ) (f : φ) : Outcome φ :=
  ⟨S.vsetClear s p f, if (s f p).things ≠ [] ∧ T.stored p then [.setClear p f] else [], none⟩

inductive SetOp where
  | or
  | and
  | sub
  | xor
  deriving DecidableEq

def SetOp.apply (a b : Imap) : SetOp → Imap
  | .or => a.union b
  | .and => a.inter b
  | .sub => a.diff b
  | .xor => a.symmdiff b

/-- The result can only contain things which are not in the set for two of them. -/
def SetOp.doTypeCheck : SetOp → Bool
  | .or | .xor => true
  | .and | .sub => false

/-- `do__name_assign` with an in-place operator on a set. -/
def inplace (s : Store φ) (p : ℕ) (f : φ) (op : SetOp) (b : Imap) : Outcome φ :=
  let imap := op.apply (s f p) b
  match S.vsetPreAssignCheck T f p imap op.doTypeCheck with
  | some e => ⟨s, [], some e⟩
  | none =>
    ⟨(S.relate s f p imap).set f p imap, if T.stored p then [.set p f imap] else [], none⟩

/-- The fields of a new instance `n`. A property which is not given gets `nil` or an
empty set. -/
def initFields (n : ℕ) (props : φ → Option (Val τ)) :
    List φ → Store φ → Except (Ex × Store φ) (Store φ)
  | [], s => .ok s
  | f :: fs, s =>
    match props f with
    | none => initFields n props fs s
    | some v =>
      match S.makeAssignable T s f n v with
      | .error e => .error (e, s)
      | .ok (s, m) => initFields n props fs (s.set f n m)

/-- One field in `ti_thing_cancel`. -/
def cancelField (n : ℕ) (s : Store φ) (f : φ) : Store φ :=
  match S.rel f with
  | none => s
  | some g =>
    if S.isSet f then S.unlinkAll g n (s f n).things s
    else
      match (s f n).things with
      | [] => s
      | o :: _ => (S.delCb s g o n).set f n .empty

def cancel (s : Store φ) (n : ℕ) (fields : List φ) : Store φ :=
  let s := fields.foldl (S.cancelField n) s
  fun f a => if a = n then .empty else s f a

/-- `ti_type_from_thing` with a thing which is not an instance. -/
def fromObject (s : Store φ) (n : ℕ) (fields : List φ) (props : φ → Option (Val τ)) :
    Outcome φ :=
  match S.initFields T n props fields s with
  | .ok s => ⟨s, [], none⟩
  | .error (e, s) => ⟨S.cancel s n fields, [], some e⟩

/-- The values of the instance `t` are used for the instance `n` as they are. -/
def copyFields (s : Store φ) (n t : ℕ) (fields : List φ) : Store φ :=
  fields.foldl (fun s f => s.set f n (s f t)) s

/-- `ti_type_from_thing` with an instance, where `type` and `str` are the type id and the
name of the type to make an instance of. A related thing is referred to by its
partner, so the values are not the last reference to it. -/
def fromInstance (s : Store φ) (n t : ℕ) (type : τ) (str : String) (fields : List φ) :
    Outcome φ :=
  if T.typeOf t ≠ type then
    ⟨s, [], some ⟨.typeError, "cannot create an instance of type `" ++ str ++
      "` from type `" ++ T.str t ++ "`" ++ docSee "collection-api/new"⟩⟩
  else ⟨copyFields s n t fields, [], none⟩

/-- `thing__dup_t` as called by `dup()`. -/
def dup (s : Store φ) (n t : ℕ) (fields : List φ) : Outcome φ :=
  ⟨copyFields s n t fields, [], none⟩

inductive Op (φ τ : Type) where
  | assign (p : ℕ) (f : φ) (v : Val τ)
  | add (p : ℕ) (f : φ) (args : List (Arg φ τ))
  | remove (p : ℕ) (f : φ) (args : List (Arg φ τ))
  | removeIf (p : ℕ) (f : φ) (closure : Closure φ) (limit : ℤ)
  | clear (p : ℕ) (f : φ)
  | inplace (p : ℕ) (f : φ) (op : SetOp) (b : Imap)
  | fromObject (n : ℕ) (fields : List φ) (props : φ → Option (Val τ))
  | fromInstance (n t : ℕ) (type : τ) (str : String) (fields : List φ)
  | dup (n t : ℕ) (fields : List φ)

/-- The result is `none` when a null pointer is dropped. -/
def exec (s : Store φ) : Op φ τ → Option (Outcome φ)
  | .assign p f v => some (S.nameAssign T s p f v)
  | .add p f args => S.add T s p f args
  | .remove p f args => some (S.remove T s p f args)
  | .removeIf p f closure limit => some (S.removeIf T s p f closure limit)
  | .clear p f => some (S.clear T s p f)
  | .inplace p f op b => some (S.inplace T s p f op b)
  | .fromObject n fields props => some (S.fromObject T s n fields props)
  | .fromInstance n t type str fields => some (fromInstance T s n t type str fields)
  | .dup n t fields => some (dup s n t fields)

end Schema
end ThingsDB.Relations
