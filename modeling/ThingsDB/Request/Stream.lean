import Mathlib.Algebra.Ring.Nat
import Mathlib.Logic.Function.Basic
import ThingsDB.Util.Omap

/-!
# Requests to other nodes

`ti/req`, and what `ti/stream` does with the requests of one stream. A request ends with its
callback, and every callback destroys the request; its memory is not there afterwards. Access to
a request which was destroyed, to a timer which is NULL, or to the request map of a closed stream
is undefined, which is `none` here. The callbacks which were called are kept with the stream.
-/

namespace ThingsDB.Request

/-- The status a callback is called with; with `success` it has the response. -/
inductive Status where
  | success
  | requestCancel
  | requestTimeout
  | writeUv
  deriving DecidableEq

/-- `ti_req_t`; whether there is a timer. -/
structure Req where
  pkgId : ℕ
  timer : Bool
  deriving DecidableEq

structure Call where
  req : ℕ
  status : Status
  deriving DecidableEq

/-- `ti_stream_t`, with the requests of the stream by the number of their creation. -/
structure Stream where
  nextPkgId : ℕ
  closed : Bool
  reqmap : Option (List (ℕ × ℕ))
  mem : ℕ → Option Req
  created : ℕ
  writes : List ℕ
  calls : List Call

/-- Where `ti_req_create` can fail: the memory for the request and its timer, for the entry in the
map, the timer, and the write. -/
inductive Failure where
  | alloc
  | map
  | timer
  | write
  deriving DecidableEq

namespace Stream

def create : Stream := ⟨0, false, some [], fun _ => none, 0, [], []⟩

/-- The callback, at the end of which the request is destroyed. -/
def call (s : Stream) (r : ℕ) (status : Status) : Stream :=
  { s with mem := Function.update s.mem r none, calls := s.calls ++ [⟨r, status⟩] }

/-- Stop the timer and call back. -/
def reqEnd (s : Stream) (r : ℕ) (status : Status) : Option Stream :=
  (s.mem r).bind fun req => if req.timer then some (s.call r status) else none

def reqCancel (s : Stream) (r : ℕ) : Option Stream := s.reqEnd r .requestCancel

def reqResult (s : Stream) (r : ℕ) : Option Stream := s.reqEnd r .success

/-- Take the request out of the map, then stop the timer and call back. -/
def reqFail (s : Stream) (r : ℕ) (status : Status) : Option Stream :=
  (s.mem r).bind fun req =>
    s.reqmap.bind fun m =>
      { s with reqmap := some (Omap.rm m req.pkgId).1 }.reqEnd r status

def reqTimeout (s : Stream) (r : ℕ) : Option Stream := s.reqFail r .requestTimeout

def reqWriteCb (s : Stream) (r : ℕ) (ok : Bool) : Option Stream :=
  let s := { s with writes := s.writes.erase r }
  if ok then some s else s.reqFail r .writeUv

/-- `ti_req_create` from `omap_set` on. A request which has the package id already is cancelled. -/
def reqSet (s : Stream) (id : ℕ) (fail : Option Failure) : Option Stream :=
  s.reqmap.bind fun m =>
    if fail = some .map ∧ Omap.get m id = none then some s
    else
      let r := s.created
      let set := Omap.set m id r
      let s := { s with reqmap := some set.1 }
      (if set.2 ≠ r then s.reqCancel set.2 else some s).map fun s =>
        if fail = some .timer ∨ fail = some .write then
          { s with reqmap := some (Omap.rm set.1 id).1 }
        else
          { s with
            mem := Function.update s.mem r (some ⟨id, true⟩)
            created := r + 1
            writes := r :: s.writes }

/-- `ti_req_create`; the package id has 16 bits. -/
def reqCreate (s : Stream) (fail : Option Failure) : Option Stream :=
  if fail = some .alloc then some s
  else
    let id := (s.nextPkgId + 1) % 2 ^ 16
    { s with nextPkgId := id }.reqSet id fail

/-- `ti_stream_on_response`; `ti_stream_on_data` does not read from a closed stream. -/
def onResponse (s : Stream) (id : ℕ) : Option Stream :=
  if s.closed then some s
  else
    s.reqmap.bind fun m =>
      let rm := Omap.rm m id
      match rm.2 with
      | none => some { s with reqmap := some rm.1 }
      | some r => { s with reqmap := some rm.1 }.reqResult r

/-- `omap_destroy` with `ti_req_cancel` -/
def cancelAll : Stream → List (ℕ × ℕ) → Option Stream
  | s, [] => some s
  | s, e :: m => (s.reqCancel e.2).bind fun s => s.cancelAll m

def close (s : Stream) : Option Stream :=
  if s.closed then some s
  else
    (s.cancelAll (s.reqmap.getD [])).map fun t => { t with closed := true, reqmap := none }

end Stream

inductive Event where
  | create (fail : Option Failure)
  | response (id : ℕ)
  | timeout (r : ℕ)
  | written (r : ℕ) (ok : Bool)
  | close

namespace Stream

def step (s : Stream) : Event → Option Stream
  | .create fail => s.reqCreate fail
  | .response id => s.onResponse id
  | .timeout r => s.reqTimeout r
  | .written r ok => s.reqWriteCb r ok
  | .close => s.close

/-- A timer runs as long as its request is there, and a write completes once after it was made. -/
def Possible (s : Stream) : Event → Prop
  | .create _ => True
  | .response _ => True
  | .timeout r => (s.mem r).any Req.timer = true
  | .written r _ => r ∈ s.writes
  | .close => True

instance (s : Stream) : ∀ e, Decidable (s.Possible e)
  | .create _ => inferInstanceAs (Decidable True)
  | .response _ => inferInstanceAs (Decidable True)
  | .timeout r => inferInstanceAs (Decidable ((s.mem r).any Req.timer = true))
  | .written r _ => inferInstanceAs (Decidable (r ∈ s.writes))
  | .close => inferInstanceAs (Decidable True)

end Stream

end ThingsDB.Request
