import ThingsDB.Lists.Varr

/-!
# Operations on lists

The functions which change a list, and assignments by index and by slice. Each
gives the list afterwards, the value which is returned or the error, and the task
for the other nodes if the list is a property of a stored thing.
-/

namespace ThingsDB.Lists

open Util

inductive Task where
  | splice (i c : ℕ) (vals : List Val)
  | fill (v : Val)
  | arrRemove (idxs : List ℕ)
  | arrClear

structure Outcome where
  varr : Varr
  rval : Except Ex Val
  task : Option Task

/-- An argument of a call: its value, or the error which is raised instead. -/
abbrev Arg : Type := Except Ex Val

def fail (l : Varr) (e : Ex) : Outcome := ⟨l, .error e, none⟩

/-- `ti_task_add_splice` with the `n` elements from `i` on. -/
def addSplice (vec : List Val) (i c n : ℕ) : Task := .splice i c ((vec.drop i).take n)

def Task.vals : Task → List Val
  | .splice _ _ vals => vals
  | .fill v => [v]
  | .arrRemove _ | .arrClear => []

/-- The values which are sent to the other nodes. -/
def Outcome.sent (o : Outcome) : List Val := o.task.elim [] Task.vals

def lenVal (vec : List Val) : Val := .int (Int64.ofNat vec.length)

section Functions

variable (E : Env) (kind : ℕ → Kind) (spec : Spec)

/-- The loop over the arguments of `push` and `splice`. -/
def appendLoop : List Arg → Varr → Option Ex × Varr
  | [], l => (none, l)
  | .error e :: _, l => (some e, l)
  | .ok v :: args, l =>
    match varrAppend E kind spec l v with
    | .error e => (some e, l)
    | .ok l => appendLoop args l

def push (l : Varr) (args : List Arg) : Outcome :=
  match nargsMin "push" (docSee "data-types/list/push") 1 args.length with
  | some e => fail l e
  | none =>
    match appendLoop E kind spec args l with
    | (some e, l') => ⟨{ l' with vec := l'.vec.take l.vec.length }, .error e, none⟩
    | (none, l') =>
      ⟨l', .ok (lenVal l'.vec), some (addSplice l'.vec l.vec.length 0 args.length)⟩

def extend (l : Varr) : List Arg → Outcome
  | [.ok (.arr _ source)] =>
    match appendLoop E kind spec (source.map .ok) l with
    | (some e, l') => ⟨{ l' with vec := l'.vec.take l.vec.length }, .error e, none⟩
    | (none, l') =>
      ⟨l', .ok (lenVal l'.vec),
        if source.length = 0 then none
        else some (addSplice l'.vec l.vec.length 0 source.length)⟩
  | [.ok v] =>
    fail l ⟨.typeError, "function `extend` expects argument 1 to be of type `list` or type " ++
      "`tuple` but got type `" ++ v.typeStr E kind ++ "` instead" ++
      docSee "data-types/list/extend"⟩
  | [.error e] => fail l e
  | args => fail l (nargsError "extend" (docSee "data-types/list/extend") 1 args.length)

/-- The loop over the arguments of `unshift`. -/
def insertLoop : List Arg → ℕ → Varr → Option Ex × Varr
  | [], _, l => (none, l)
  | .error e :: _, _, l => (some e, l)
  | .ok v :: args, idx, l =>
    match varrInsert E kind spec l v idx with
    | .error e => (some e, l)
    | .ok l => insertLoop args (idx + 1) l

def unshift (l : Varr) (args : List Arg) : Outcome :=
  match nargsMin "unshift" (docSee "data-types/list/unshift") 1 args.length with
  | some e => fail l e
  | none =>
    match insertLoop E kind spec args 0 l with
    | (some e, l') =>
      ⟨{ l' with vec := l'.vec.drop (l'.vec.length - l.vec.length) }, .error e, none⟩
    | (none, l') => ⟨l', .ok (lenVal l'.vec), some (addSplice l'.vec 0 0 args.length)⟩

def pop (l : Varr) : List Arg → Outcome
  | [] =>
    match l.vec.getLast? with
    | none => fail l ⟨.lookupError, "pop from empty list" ++ docSee "data-types/list/pop"⟩
    | some v => ⟨{ l with vec := l.vec.dropLast }, .ok v, some (.splice (l.vec.length - 1) 1 [])⟩
  | args => fail l (nargsError "pop" (docSee "data-types/list/pop") 0 args.length)

def shift (l : Varr) : List Arg → Outcome
  | [] =>
    match l.vec with
    | [] => fail l ⟨.lookupError, "shift from empty list" ++ docSee "data-types/list/shift"⟩
    | v :: vec => ⟨{ l with vec }, .ok v, some (.splice 0 1 [])⟩
  | args => fail l (nargsError "shift" (docSee "data-types/list/shift") 0 args.length)

/-- An argument with `fn_arg_int`. -/
def argInt (name doc : String) (argn : ℕ) : Arg → Except Ex Int64
  | .error e => .error e
  | .ok (.int i) => .ok i
  | .ok v =>
    .error ⟨.typeError, "function `" ++ name ++ "` expects argument " ++ toString argn ++
      " to be of type `int` but got type `" ++ v.typeStr E kind ++ "` instead" ++ doc⟩

/-- What the label `fail2` of `do__f_splice` leaves in the slots, after `new` was appended out of
`n` values: the tail is moved once more from the same slots to the same slots. -/
def spliceFail2 {α : Type} [Inhabited α] (vec new : List α) (i c n : ℕ) : List α :=
  let tail := vec.length - i - c
  let data := ((Slots.ofList vec).memmove (i + n) (i + c) tail).write i new
  ((data.memmove (i + n) (i + c) tail).write i ((vec.drop i).take c)).read vec.length

/-- `do__f_splice` from the creation of the list with the deleted elements on. The tail is
moved before the arguments are evaluated. After a failure the values are those which the slots
have before anything else is freed. -/
def spliceFrom (l : Varr) (i c : ℕ) (args : List Arg) : Outcome :=
  let n := args.length
  let tail := l.vec.length - i - c
  let deleted := (l.vec.drop i).take c
  let data := (Slots.ofList l.vec).memmove (i + n) (i + c) tail
  match appendLoop E kind spec args { l with vec := l.vec.take i } with
  | (some e, l') =>
    ⟨{ l' with vec := spliceFail2 l.vec (l'.vec.drop i) i c n }, .error e, none⟩
  | (none, l') =>
    ⟨{ l' with vec := (data.write i (l'.vec.drop i)).read (l.vec.length + n - c) },
      .ok (.arr ⟨false, false, false⟩ deleted),
      if c = 0 ∧ n = 0 then none else some (.splice i c (l'.vec.drop i))⟩

/-- The start index and the number of elements to delete. The addition of a start which is
negative to the number is `none` if it does not fit 64 bits. -/
def spliceArgs (n : ℕ) (i c : ℤ) : Option (ℕ × ℕ) :=
  let i := if i < 0 then i + n else i
  if i < 0 ∧ c + i < Int64.minValue.toInt then none
  else
    let c := if i < 0 then c + i else c
    let i := if i < 0 then 0 else if n < i then n else i.toNat
    some (i, if c < 0 then 0 else if ((n - i : ℕ) : ℤ) < c then n - i else c.toNat)

def splice (l : Varr) (args : List Arg) : Option Outcome :=
  match args with
  | a₁ :: a₂ :: args =>
    match argInt E kind "splice" (docSee "data-types/list/splice") 1 a₁,
        argInt E kind "splice" (docSee "data-types/list/splice") 2 a₂ with
    | .error e, _ => some (fail l e)
    | .ok _, .error e => some (fail l e)
    | .ok i, .ok c =>
      (spliceArgs l.vec.length i.toInt c.toInt).map fun (i, c) => spliceFrom E kind spec l i c args
  | args => some (fail l (nargsMinError "splice" (docSee "data-types/list/splice") 2 args.length))

/-- The loop of `do__f_remove_list` with the indexes found so far. -/
def selectLoop (closure : Val → ℕ → Except Ex Bool) (limit : ℤ) :
    List (Val × ℕ) → List ℕ → Except Ex (List ℕ)
  | [], found => .ok found
  | (v, idx) :: rest, found =>
    if (found.length : ℤ) = limit then .ok found
    else
      match closure v idx with
      | .error e => .error e
      | .ok b => selectLoop closure limit rest (if b then found ++ [idx] else found)

def selectIdxs (closure : Val → ℕ → Except Ex Bool) (limit : Int64) (vec : List Val) :
    Except Ex (List ℕ) :=
  if 0 ≤ limit then selectLoop closure limit.toInt vec.zipIdx []
  else
    let limit := if limit = Int64.minValue then Int64.maxValue.toInt else |limit.toInt|
    (selectLoop closure limit vec.zipIdx.reverse []).map List.reverse

/-- The calls of `vec_remove` with indexes from high to low. -/
def removeIdxs (vec : List Val) (idxs : List ℕ) : List Val :=
  idxs.foldl (fun vec idx => vec.eraseIdx idx) vec

/-- `do__f_remove_list`, where the second argument is optional. -/
def remove (l : Varr) (closure : Val → ℕ → Except Ex Bool) (limit : Option Arg) : Outcome :=
  match limit.elim (.ok Int64.maxValue)
      (argInt E kind "remove" (docSee "data-types/list/remove") 2) with
  | .error e => fail l e
  | .ok limit =>
    match selectIdxs closure limit l.vec with
    | .error e => fail l e
    | .ok idxs =>
      ⟨{ l with vec := removeIdxs l.vec idxs.reverse },
        .ok (.arr ⟨false, idxs ≠ [], idxs ≠ []⟩ (idxs.filterMap fun idx => l.vec[idx]?)),
        if idxs = [] then none else some (.arrRemove idxs.reverse)⟩

def fill (l : Varr) : List Arg → Outcome
  | [.ok v] =>
    match varrFill E kind spec l v with
    | .error e => fail l e
    | .ok l => ⟨l, .ok (.arr l.flags l.vec), l.vec.head?.map .fill⟩
  | [.error e] => fail l e
  | args => fail l (nargsError "fill" (docSee "data-types/list/fill") 1 args.length)

/-- `do__f_clear_list` -/
def clear (l : Varr) : List Arg → Outcome
  | [] => ⟨{ l with vec := [] }, .ok .nil, if l.vec.length = 0 then none else some .arrClear⟩
  | args => fail l (nargsError "clear" (docSee "data-types/list/clear") 0 args.length)

end Functions

section Index

variable (E : Env) (kind : ℕ → Kind) (spec : Spec)

def numeric (idx : Arg) (n : ℕ) : Except Ex ℕ :=
  match idx with
  | .error e => .error e
  | .ok (.int i) =>
    let i := if i < 0 then i.toInt + n else i.toInt
    if i < 0 ∨ (n : ℤ) ≤ i then .error ⟨.lookupError, "index out of range"⟩ else .ok i.toNat
  | .ok v =>
    .error ⟨.typeError, "expecting an index of type `int` but got type `" ++ v.typeStr E kind ++
      "` instead"⟩

/-- The end of `index__array_ass`. -/
def assigned (l : Varr) (idx : ℕ) (v : Val) : Outcome :=
  ⟨l, .ok v, some (addSplice l.vec idx 1 1)⟩

/-- `index__array_ass` with an operator, or with `=`. With an operator the result is put in
the list as it is. -/
def arrayAss (l : Varr) (idx : Arg) (opr : Option OprToken) (val : Arg) : Option Outcome :=
  match numeric E kind idx l.vec.length, val, opr with
  | .error e, _, _ => some (fail l e)
  | .ok _, .error e, _ => some (fail l e)
  | .ok i, .ok v, some opr =>
    (Opr.aToB E (fun t => (kind t).type?) (fun _ _ => none) (l.vec.getD i .nil) v opr).map fun
      | .error e => fail l e
      | .ok r => assigned { l with vec := l.vec.set i r } i r
  | .ok i, .ok v, none =>
    some (match varrSet E kind spec l v i with
      | .error e => fail l e
      | .ok l => assigned l i (l.vec.getD i .nil))

/-- The error of `index__slice_also_not_nil`. -/
def sliceError (v : Val) : Ex :=
  ⟨.typeError, "slice indices must be of type `int` or `nil` but got got type `" ++
    v.typeStr E kind ++ "` instead" ++ docSee "overview/slices"⟩

/-- One of the indices of a slice: absent or nil, or an integer. -/
def sliceIndex : Option Arg → Except Ex (Option ℤ)
  | none | some (.ok .nil) => .ok none
  | some (.ok (.int i)) => .ok (some i.toInt)
  | some (.ok v) => .error (sliceError E kind v)
  | some (.error e) => .error e

def sliceStart (n i : ℤ) : ℤ :=
  if 0 < i then (if n < i then n else i) else if i < 0 ∧ 0 < n + i then n + i else 0

def sliceStop (n i : ℤ) : ℤ :=
  if i < n then (if i < 0 then (if n + i < 0 then 0 else n + i) else i) else n

/-- The start, the stop and the step of a slice of `n` elements, where none is an index
which is absent or nil. -/
def sliceOf (n : ℤ) (start stop : Option ℤ) : Option ℤ → Except Ex (ℤ × ℤ × ℤ)
  | none => .ok ((start.map (sliceStart n)).getD 0, (stop.map (sliceStop n)).getD n, 1)
  | some step =>
    if step < 0 then
      .ok ((start.map (sliceStart n)).getD (n - 1), (stop.map (sliceStop n)).getD (-1), step)
    else if step = 0 then .error ⟨.valueError, "slice step cannot be zero"⟩
    else .ok ((start.map (sliceStart n)).getD 0, (stop.map (sliceStop n)).getD n, step)

/-- `index__read_slice_indices`. The indices are not even evaluated when there are no
elements. -/
def readSliceIndices (n : ℕ) (start stop step : Option Arg) : Except Ex (ℤ × ℤ × ℤ) :=
  if n = 0 then .ok (0, 0, 1)
  else do
    let start ← sliceIndex E kind start
    let stop ← sliceIndex E kind stop
    let step ← sliceIndex E kind step
    sliceOf n start stop step

def oprStr : OprToken → String
  | .mod => "%="
  | .and => "&="
  | .mul => "*="
  | .add => "+="
  | .sub => "-="
  | .div => "/="
  | .xor => "^="
  | .or => "|="

/-- The right side of an assignment: the list itself, or another value. -/
inductive Rhs where
  | own
  | val (a : Arg)

def Rhs.arg (l : Varr) : Rhs → Arg
  | .own => .ok (.arr l.flags l.vec)
  | .val a => a

/-- The slots `memcpy` reads and those it writes are slots of the same list. -/
def Rhs.overlaps (start n : ℕ) : Rhs → Bool
  | .own => start < n
  | .val _ => false

/-- `index__slice_ass`. The elements are copied as they are, and the flags of the list stay
what they were. If the list is assigned to a slice of itself, elements are dropped before they are
copied, by `memcpy` between slots which overlap, which is not defined. -/
def sliceAss (l : Varr) (start stop step : Option Arg) (opr : Option OprToken) (rhs : Rhs) :
    Option Outcome :=
  match opr, readSliceIndices E kind l.vec.length start stop step with
  | some opr, _ =>
    some <| fail l ⟨.typeError, "unsupported operand type `" ++ oprStr opr ++
      "` for slice assignments" ++ docSee "overview/slices"⟩
  | none, .error e => some (fail l e)
  | none, .ok (start, stop, step) =>
    if step ≠ 1 then
      some <| fail l ⟨.valueError, "slice assignments require a step value of 1 but got " ++
        toString step ++ " instead" ++ docSee "overview/slices"⟩
    else
      match rhs.arg l with
      | .error e => some (fail l e)
      | .ok (.arr _ vec) =>
        let start := start.toNat
        let c := (stop - start).toNat
        let n := vec.length
        let data := (Slots.ofList l.vec).memmove (start + n) (start + c) (l.vec.length - start - c)
        let l := { l with vec := (data.write start vec).read (l.vec.length + n - c) }
        if rhs.overlaps start n then none
        else some ⟨l, .ok .nil, some (addSplice l.vec start c n)⟩
      | .ok v =>
        some <| fail l ⟨.typeError,
          "slice assignments require a `list` or `tuple` type but got type `" ++ v.typeStr E kind ++
            "` instead" ++ docSee "overview/slices"⟩

end Index
end ThingsDB.Lists
