import ThingsDB.Lib.Ring
import ThingsDB.Util.Vec

/-!
# The circular queue

`util/queue`: the data is a ring of `sz` slots, of which `n` are used from the slot `s` on.
Memory which is allocated has any values. `size_t` does not overflow, as no queue is that large.
-/

namespace ThingsDB.Util

open Ring

/-- `queue_t` -/
structure Queue (α : Type) where
  n : ℕ
  sz : ℕ
  s : ℕ
  data : Slots α

namespace Queue

variable {α : Type}

def i (q : Queue α) (k : ℕ) : ℕ := slot q.sz q.s k

def new (mem : Slots α) (sz : ℕ) : Queue α := ⟨0, sz, 0, mem⟩

def get (q : Queue α) (k : ℕ) : α := q.data (q.i k)

/-- `queue_each`, where the values are visited from the slot `v` on, until the slot `e`. -/
def eachFrom (q : Queue α) : ℕ → ℕ → ℕ → Option (List α)
  | 0, _, _ => none
  | fuel + 1, v, e =>
    if v < q.sz ∧ v < e then (q.eachFrom fuel (v + 1) e).map (q.data v :: ·)
    else if q.sz < e then (q.eachFrom fuel 1 (e - q.sz)).map (q.data 0 :: ·)
    else some []

/-- The values which `queue_each` visits, with a bound on the number of tests. -/
def each (q : Queue α) (fuel : ℕ) : Option (List α) := q.eachFrom fuel q.s (q.s + q.n)

def resize (q : Queue α) (sz : ℕ) : Queue α :=
  { q with sz := sz, data := q.data.memmove q.sz 0 q.s }

def grow (q : Queue α) : Queue α := q.resize ((if q.sz = 0 then 1 else q.sz) * 2)

def ensure (q : Queue α) : Queue α := if q.n = q.sz then q.grow else q

def reserve (q : Queue α) (n : ℕ) : Queue α :=
  if q.sz < q.n + n then q.resize (if q.sz * 2 < q.n + n then q.n + n else q.sz * 2) else q

/-- `QUEUE_push` -/
def pushUnsafe (q : Queue α) (a : α) : Queue α :=
  { q with n := q.n + 1, data := q.data.set (q.i q.n) a }

def push (q : Queue α) (a : α) : Queue α := q.ensure.pushUnsafe a

/-- `QUEUE_unshift` -/
def unshiftUnsafe (q : Queue α) (a : α) : Queue α :=
  let s := (if q.s ≠ 0 then q.s else q.sz) - 1
  { q with n := q.n + 1, s := s, data := q.data.set s a }

def unshift (q : Queue α) (a : α) : Queue α := q.ensure.unshiftUnsafe a

/-- `for (x = hi; x > lo; x--) data[x] = data[x - 1]` -/
def walkReverse (lo : ℕ) : ℕ → Slots α → Slots α
  | 0, d => d
  | x + 1, d => if lo < x + 1 then walkReverse lo x (d.set (x + 1) (d x)) else d

/-- `data[x - 1] = data[x]` for a number of slots from `x` on. -/
def walkForward : ℕ → ℕ → Slots α → Slots α
  | 0, _, d => d
  | k + 1, x, d => walkForward k (x + 1) (d.set (x - 1) (d x))

/-- `queue_insert` where the index is inside of the queue and there is space. -/
def insertUnsafe (q : Queue α) (idx : ℕ) (a : α) : Queue α :=
  let i := q.i idx
  let e := q.i q.n
  if i < e then
    { q with n := q.n + 1, data := (walkReverse i e q.data).set i a }
  else
    { q with
      n := q.n + 1
      s := q.s - 1
      data := (walkForward (i - q.s) q.s q.data).set (i - 1) a }

def insert (q : Queue α) (idx : ℕ) (a : α) : Queue α :=
  if idx = 0 then q.unshift a
  else if q.n ≤ idx then q.push a
  else q.ensure.insertUnsafe idx a

def pop (q : Queue α) : Queue α × Option α :=
  if q.n ≠ 0 then ({ q with n := q.n - 1 }, some (q.data (q.i (q.n - 1)))) else (q, none)

def shift (q : Queue α) : Queue α × Option α :=
  if q.n ≠ 0 then
    let s := q.i 1
    ({ q with n := q.n - 1, s := s }, some (q.data ((if s ≠ 0 then s else q.sz) - 1)))
  else (q, none)

def remove (q : Queue α) (idx : ℕ) : Queue α × Option α :=
  if q.n ≤ idx then (q, none)
  else
    let i := q.i idx
    if q.s ≤ i then
      ({ q with n := q.n - 1, s := q.s + 1, data := walkReverse q.s i q.data }, some (q.data i))
    else
      let e := q.i q.n
      ({ q with n := q.n - 1, data := walkForward (e - (i + 1)) (i + 1) q.data }, some (q.data i))

def rmval [DecidableEq α] (q : Queue α) (a : α) : Queue α × Option α :=
  match (q.each (q.n + 1)).bind fun l => l.findIdx? (· = a) with
  | some idx => q.remove idx
  | none => (q, none)

def extend (q : Queue α) (xs : List α) : Queue α :=
  let q := q.reserve xs.length
  let next := q.i q.n
  let m := q.sz - next
  if next < q.s ∨ xs.length ≤ m then
    { q with n := q.n + xs.length, data := q.data.write next xs }
  else
    { q with
      n := q.n + xs.length
      data := (q.data.write next (xs.take m)).write 0 (xs.drop m) }

def shrink (q : Queue α) : Queue α :=
  if q.n = q.sz then q
  else
    let n := if q.sz - q.s ≤ q.n then q.sz - q.s else q.n
    { q with sz := q.n, s := q.n - n, data := q.data.memmove (q.n - n) q.s n }

end Queue

inductive QueueOp (α : Type) where
  | push (a : α)
  | unshift (a : α)
  | insert (idx : ℕ) (a : α)
  | pop
  | shift
  | remove (idx : ℕ)
  | rmval (a : α)
  | reserve (n : ℕ)
  | extend (xs : List α)
  | shrink

section Ops

variable {α : Type} [DecidableEq α]

def Queue.step (q : Queue α) : QueueOp α → Queue α × Option α
  | .push a => (q.push a, none)
  | .unshift a => (q.unshift a, none)
  | .insert idx a => (q.insert idx a, none)
  | .pop => q.pop
  | .shift => q.shift
  | .remove idx => q.remove idx
  | .rmval a => q.rmval a
  | .reserve n => (q.reserve n, none)
  | .extend xs => (q.extend xs, none)
  | .shrink => (q.shrink, none)

def QueueOp.onList (l : List α) : QueueOp α → List α × Option α
  | .push a => (l ++ [a], none)
  | .unshift a => (a :: l, none)
  | .insert idx a => (l.insertIdx (min idx l.length) a, none)
  | .pop => (l.dropLast, l.getLast?)
  | .shift => (l.tail, l.head?)
  | .remove idx => (l.eraseIdx idx, l[idx]?)
  | .rmval a => (l.erase a, if a ∈ l then some a else none)
  | .reserve _ | .shrink => (l, none)
  | .extend xs => (l ++ xs, none)

end Ops

end ThingsDB.Util
