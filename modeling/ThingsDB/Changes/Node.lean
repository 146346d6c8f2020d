import ThingsDB.Util.Olist
import Mathlib.Tactic

/-!
# The change administration of one node

Translation of `ti/changes.c`. The queue is the list it represents, pointers to
changes are the `uid` of the change, and clock readings are rational numbers of
seconds which the caller supplies. Change ids are natural numbers: the 64-bit
counter starts at one and every id is handed out once, so it does not wrap.
Allocations succeed. Logging, counters and the request for a missing change are
left out since nothing in the administration reads them.
-/

namespace ThingsDB.Changes

open Util

/-- `ti_change_tp_enum` -/
inductive ChangeTp where
  | master
  | cpkg
  deriving DecidableEq, Repr

/-- `ti_change_status_enum` -/
inductive ChangeStatus where
  | new
  | cancel
  | ready
  deriving DecidableEq, Repr

/-- `ti_change_t`; `allowGap` is the flag on the package of a `cpkg` change. -/
structure Change where
  uid : ℕ
  id : ℕ
  tp : ChangeTp
  status : ChangeStatus
  requests : ℕ
  allowGap : Bool
  time : ℚ
  deriving DecidableEq

/-- The response to a request for a change id. A collision carries the number
of requests which the colliding change has sent itself. -/
inductive Answer where
  | accept
  | reject
  | collision (n : ℕ)
  deriving DecidableEq, Repr

/-- `ti_changes_t` together with the committed change id of `ti.node`. The next
`uid` stands for the address of the next change which is allocated. -/
structure Node where
  nextUid : ℕ
  nextChangeId : ℕ
  ccid : ℕ
  queue : List Change
  skippedIds : Olist
  waitCcid : ℕ
  waitGapTime : ℚ

def maxIdGap : ℕ := 1000

def timeout : ℚ := 42

def newTimeout : ℚ := 21

/-- What `changes__loop` reads from outside: the clock at the start, the clock
at the moment a gap is seen, and whether this node is synchronizing. -/
structure Clock where
  timing : ℚ
  gapTime : ℚ
  synchronizing : Bool

/-- An execution: the change, with the committed id and the queue right before
it and the committed id right after it. -/
structure Exec where
  change : Change
  ccid : ℕ
  queue : List Change
  ccidAfter : ℕ

namespace Node

/-- `ti_change_create`; the id is set by the caller. -/
def create (s : Node) (tp : ChangeTp) (time : ℚ) : Change × Node :=
  (⟨s.nextUid, 0, tp, .new, 0, false, time⟩, { s with nextUid := s.nextUid + 1 })

/-- `changes__push`: append behind the last change, or insert in front of the
first change with a higher id. -/
def insertChange (change : Change) : List Change → List Change
  | [] => [change]
  | c :: cs => if change.id < c.id then change :: c :: cs else c :: insertChange change cs

def push (s : Node) (change : Change) : Node :=
  { s with
    queue :=
      match s.queue.getLast? with
      | none => s.queue ++ [change]
      | some last =>
        if last.id < change.id then s.queue ++ [change] else insertChange change s.queue }

/-- `queue_rmval`: the first entry which is the given change. -/
def rmval (s : Node) (uid : ℕ) : Node :=
  { s with queue := s.queue.eraseP fun c => c.uid = uid }

def shift (s : Node) : Node := { s with queue := s.queue.tail }

/-- The `do … while` of `ti_changes_accept_id`: every id from `next` on is
remembered as skipped, `n` ids in total. -/
def skip : ℕ → Olist → ℕ → Olist
  | 0, l, _ => l
  | n + 1, l, next => skip n (l.set next) (next + 1)

/-- The walk over the skipped ids at the end of `ti_changes_accept_id`. The
first argument is what the iterator still has to visit. -/
def takeSkipped (ccid x : ℕ) : List ℕ → Olist → Answer × Olist
  | [], l => (.reject, l)
  | id :: ids, l =>
    if id ≤ ccid then takeSkipped ccid x ids (l.rm id)
    else if id = x then (.accept, l.rm id)
    else if x < id then (.reject, l)
    else takeSkipped ccid x ids l

/-- The walk over the queue in `ti_changes_accept_id`: it stops at the first
change with a higher id. -/
def findQueued (x : ℕ) : List Change → Option Change
  | [] => none
  | c :: cs => if x < c.id then none else if c.id = x then some c else findQueued x cs

def acceptId (s : Node) (x : ℕ) : Answer × Node :=
  if x = s.nextChangeId then
    (.accept, { s with nextChangeId := s.nextChangeId + 1 })
  else if s.nextChangeId < x then
    (.accept,
      { s with
        skippedIds := skip (x - s.nextChangeId) s.skippedIds s.nextChangeId
        nextChangeId := x + 1 })
  else
    match findQueued x s.queue with
    | some c => (if c.tp = .master then .collision c.requests else .reject, s)
    | none =>
      let r := takeSkipped s.ccid x s.skippedIds.ids s.skippedIds
      (r.1, { s with skippedIds := r.2 })

/-- The part of `changes__req_change_id` which concerns the administration: the
change takes the next id and is queued. The result contains the change as it
is queued, since the quorum keeps a reference to it. -/
def reqChangeId (s : Node) (change : Change) (requests : ℕ) : Change × Node :=
  let change := { change with id := s.nextChangeId, requests := requests }
  (change, { s with nextChangeId := s.nextChangeId + 1 }.push change)

def setReady (s : Node) (uid : ℕ) : Node :=
  { s with queue := s.queue.map fun c => if c.uid = uid then { c with status := .ready } else c }

/-- A received package becomes a queued change which is ready at once. -/
def addCpkg (s : Node) (id : ℕ) (allowGap : Bool) (time : ℚ) : Node :=
  let r := s.create .cpkg time
  r.2.push { r.1 with id := id, status := .ready, allowGap := allowGap }

/-- The flags of a package which is received again are added to the queued one. -/
def mergeFlags (s : Node) (uid : ℕ) (allowGap : Bool) : Node :=
  { s with
    queue := s.queue.map fun c =>
      if c.uid = uid then { c with allowGap := c.allowGap || allowGap } else c }

/-- `ti_changes_add_change` from the search for a queued change on. -/
def addQueued (s : Node) (id : ℕ) (allowGap : Bool) (time : ℚ) : Option (Bool × Node) :=
  match s.queue.reverse.find? fun c => c.id = id with
  | none => some (true, s.addCpkg id allowGap time)
  | some c =>
    match c.status, c.tp with
    | .ready, .master => some (false, s)
    | .ready, .cpkg => some (false, s.mergeFlags c.uid allowGap)
    | _, .cpkg => none
    | _, .master => some (true, (s.rmval c.uid).addCpkg id allowGap time)

/-- `ti_changes_add_change`; `none` is the failed assertion on the type of a
queued change, and the Boolean tells if the package is added. -/
def addChange (s : Node) (id : ℕ) (allowGap : Bool) (time : ℚ) : Option (Bool × Node) :=
  if s.nextChangeId < id ∧ maxIdGap < id - s.nextChangeId then some (false, s)
  else if id ≤ s.ccid then some (false, s)
  else
    addQueued { s with nextChangeId := if s.nextChangeId ≤ id then id + 1 else s.nextChangeId }
      id allowGap time

/-- How one pass of the `while` in `changes__loop` ends: a `break`, a drop of
the first change, an execution of the first change, or a failed assertion. -/
inductive Pass where
  | leave (s : Node)
  | drop (s : Node)
  | exec (s : Node) (e : Exec)
  | abort

/-- From the label `process` on. -/
def process (s : Node) (change : Change) : Pass :=
  if change.status = .ready then
    let s' := { s with ccid := change.id }.shift
    .exec s' ⟨change, s.ccid, s.queue, s'.ccid⟩
  else .abort

/-- A new change waits for its quorum until it is killed. -/
def processNew (w : Clock) (s : Node) (change : Change) : Pass :=
  if change.status = .new then
    if w.timing - change.time < newTimeout then .leave s else .drop s.shift
  else process s change

/-- One pass of the `while` in `changes__loop`. -/
def pass (w : Clock) (s : Node) : Pass :=
  match s.queue with
  | [] => .leave s
  | change :: _ =>
    if change.status = .cancel then .abort
    else if change.id ≤ s.ccid then .drop s.shift
    else if s.ccid + 1 < change.id then
      if change.tp = .cpkg ∧ change.allowGap then process s change
      else if w.synchronizing then .leave s
      else if s.waitCcid ≠ s.ccid then
        .leave { s with waitCcid := s.ccid, waitGapTime := w.gapTime }
      else if w.timing - s.waitGapTime < timeout then .leave s
      else if s.ccid + 1 + 1 < change.id then .leave { s with ccid := s.ccid + 1 }
      else processNew w { s with ccid := s.ccid + 1 } change
    else processNew w s change

/-- `changes__loop` with `n` passes left. -/
def loop (w : Clock) : ℕ → Node → Option (Node × List Exec)
  | 0, s => some (s, [])
  | n + 1, s =>
    match pass w s with
    | .leave s => some (s, [])
    | .drop s => loop w n s
    | .exec s e => (loop w n s).map fun r => (r.1, e :: r.2)
    | .abort => none

end Node
end ThingsDB.Changes
