import ThingsDB.Lib.Transition
import ThingsDB.Changes.Vote
import ThingsDB.Changes.Agreement

/-!
# A cluster of nodes

Every node has its own change administration. A proposal of a node for a change
id is a poll: the requests which were sent, the answers which were given, what
the proposer has heard, its quorum, and the call of the quorum callback. Events
happen in any order. What a node sees of the others when it proposes, and which
requests get no answer in time, is up to the event.
-/

namespace ThingsDB.Changes

/-- What a node sees when it sends its requests: the nodes with a status above
`SHUTTING_DOWN`, and the nodes for which a request can be created. -/
structure View (N : ℕ) where
  up : Fin N → Bool
  created : Fin N → Bool

namespace View

variable {N : ℕ}

def quorum (v : View N) : ℕ := if N = 2 ∧ ∃ j, v.up j = false then 0 else N / 2

def hasQuorum (v : View N) : Bool :=
  v.quorum + 1 ≤ (Finset.univ.filter fun j => v.up j = true).card

def sends (v : View N) (j : Fin N) : Bool := v.up j && v.created j

def calm : View N := ⟨fun _ => true, fun _ => true⟩

end View

/-- One proposal of a node. Here `heard` is what `ti_quorum_req_cb` has got for a
request, where `some none` stands for no answer in time, and `called` is the
call of the callback with the quorum as it was. -/
structure Poll (N : ℕ) where
  proposed : Bool
  sent : Fin N → Bool
  answer : Fin N → Option Answer
  heard : Fin N → Option (Option Answer)
  quorum : Option Quorum
  called : Option (Bool × Quorum)

namespace Poll

variable {N : ℕ}

def none : Poll N := ⟨false, fun _ => false, fun _ => .none, fun _ => .none, .none, .none⟩

/-- The quorum callback was called with `true`. -/
def won (p : Poll N) : Bool := p.called.any fun r => r.1

def start (sent : Fin N → Bool) : Poll N := { none with proposed := true, sent := sent }

/-- The nodes which decide on the proposal of `i`: itself and those with a request. -/
def voters (i : Fin N) (p : Poll N) : Finset (Fin N) :=
  Finset.univ.filter fun j => j = i ∨ p.sent j = true

/-- The node `j` answers. -/
def reply (p : Poll N) (j : Fin N) (a : Answer) : Poll N :=
  { p with answer := Function.update p.answer j (some a) }

/-- The request to `j` gets its answer, or none in time. -/
def hear (p : Poll N) (j : Fin N) (a : Option Answer) : Poll N :=
  { p with heard := Function.update p.heard j (some a) }

/-- `ti_quorum_go` on the quorum `q`. -/
def go (p : Poll N) (q : Quorum) : Poll N :=
  { p with
    quorum := q.go.2
    called :=
      match q.go.1 with
      | some b => some (b, q)
      | .none => p.called }

end Poll

structure Cluster (N : ℕ) where
  node : Fin N → Node
  poll : Fin N × ℕ → Poll N

/-- `propose` is `ti_changes_create_new_change`, `receive i x j` is the arrival at
`j` of the request of `i` for `x`, `deliver i x j` is the arrival of the answer,
and `lose i x j` is the end of waiting for it. The views are for the proposals
which the event causes, in the order in which they are made; a node without a
view does not have a quorum. -/
inductive Event (N : ℕ) where
  | propose (i : Fin N) (time : ℚ) (views : List (View N))
  | receive (i : Fin N) (x : ℕ) (j : Fin N)
  | deliver (i : Fin N) (x : ℕ) (j : Fin N) (views : List (View N))
  | lose (i : Fin N) (x : ℕ) (j : Fin N) (views : List (View N))

namespace Cluster

variable {N : ℕ}

/-- The loop of `changes__req_change_id` which sends the requests. -/
def sendRequests (i : Fin N) (v : View N) (q : Quorum) : Quorum :=
  (List.finRange N).foldl (fun q j => if j = i ∨ v.sends j = true then q else q.shrinkOne) q

/-- `changes__req_change_id` up to `ti_quorum_go`. -/
def reqChangeId (c : Cluster N) (i : Fin N) (v : View N) (change : Change) :
    ℕ × Quorum × Cluster N :=
  let x := (c.node i).nextChangeId
  let q := sendRequests i v (Quorum.new N v.quorum change)
  let r := (c.node i).reqChangeId change q.requests
  (x, { q with change := r.1 },
    { node := Function.update c.node i r.2
      poll := Function.update c.poll (i, x)
        (Poll.start fun j => decide (j ≠ i) && v.sends j) })

/-- `changes__on_req_change_id` up to a new proposal. -/
def onReqChangeId (s : Node) (change : Change) (accepted : Bool) : Node :=
  if accepted then s.setReady change.uid else s.rmval change.uid

/-- `ti_quorum_go` with its callback up to a new proposal. -/
def go (c : Cluster N) (i : Fin N) (x : ℕ) (q : Quorum) : Cluster N :=
  { node :=
      match q.go.1 with
      | some b => Function.update c.node i (onReqChangeId (c.node i) q.change b)
      | none => c.node
    poll := Function.update c.poll (i, x) ((c.poll (i, x)).go q) }

/-- `ti_quorum_go`. A quorum which is lost leads to a new proposal, the quorum of
which may be decided at once. -/
def settle (i : Fin N) : List (View N) → ℕ → Quorum → Cluster N → Cluster N
  | [], x, q, c => c.go i x q
  | v :: vs, x, q, c =>
    if q.go.1 = some false ∧ v.hasQuorum = true then
      let r := (c.go i x q).reqChangeId i v q.change
      settle i vs r.1 r.2.1 r.2.2
    else c.go i x q

/-- `ti_changes_create_new_change` -/
def propose (c : Cluster N) (i : Fin N) (time : ℚ) : List (View N) → Cluster N
  | [] => c
  | v :: vs =>
    if v.hasQuorum = true then
      let p := (c.node i).create .master time
      let r := { c with node := Function.update c.node i p.2 }.reqChangeId i v p.1
      settle i vs r.1 r.2.1 r.2.2
    else c

/-- `nodes__on_req_change_id` at the node `j`. -/
def receive (c : Cluster N) (i : Fin N) (x : ℕ) (j : Fin N) : Cluster N :=
  let r := (c.node j).acceptId x
  { node := Function.update c.node j r.2
    poll := Function.update c.poll (i, x) ((c.poll (i, x)).reply j r.1) }

/-- `ti_quorum_req_cb` for the request to the node `j`. -/
def reqCb (ids : Fin N → ℕ) (c : Cluster N) (i : Fin N) (x : ℕ) (j : Fin N)
    (views : List (View N)) (q : Quorum) (a : Option Answer) : Cluster N :=
  settle i views x (q.reqCb (ids i) (ids j) a)
    { c with poll := Function.update c.poll (i, x) ((c.poll (i, x)).hear j a) }

/-- An event, where `ids` are the node ids. The result is `none` for an event
which cannot happen. -/
def step (ids : Fin N → ℕ) (c : Cluster N) : Event N → Option (Cluster N)
  | .propose i time views => some (c.propose i time views)
  | .receive i x j =>
    let p := c.poll (i, x)
    if p.sent j = true ∧ p.answer j = none then some (c.receive i x j) else none
  | .deliver i x j views =>
    let p := c.poll (i, x)
    match p.quorum, p.heard j, p.answer j with
    | some q, none, some a => some (c.reqCb ids i x j views q (some a))
    | _, _, _ => none
  | .lose i x j views =>
    let p := c.poll (i, x)
    match p.quorum, p.heard j, p.sent j with
    | some q, none, true => some (c.reqCb ids i x j views q none)
    | _, _, _ => none

end Cluster
end ThingsDB.Changes
