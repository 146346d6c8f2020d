import ThingsDB.Imap.Node
import ThingsDB.Lib.Bijective

/-!
# Integer maps

`imap_t` and the calls on it. A map has 32 nodes; the keys of an id are its remainder modulo 32,
then those of what is left of the quotient less one.
-/

namespace ThingsDB.Imap

open Node

/-- `imap_t` -/
structure Map (α : Type) where
  n : ℕ
  nodes : Key → Node α

def keys (id : ℕ) : List Key := Bijective.digits 32 id

namespace Map

variable {α : Type}

def create : Map α := ⟨0, fun _ => empty⟩

/-- `imap_add`; whether the id is new, `IMAP_ERR_EXIST` if not. -/
def add (m : Map α) (id : ℕ) (a : α) : Map α × Bool :=
  match keys id with
  | [] => (m, false)
  | k :: ks =>
    let r := (m.nodes k).add a ks
    (⟨wrap 64 (m.n + one r.2), Function.update m.nodes k r.1⟩, r.2)

def get (m : Map α) (id : ℕ) : Option α :=
  match keys id with
  | [] => none
  | k :: ks => (m.nodes k).get ks

def pop (m : Map α) (id : ℕ) : Map α × Option α :=
  match keys id with
  | [] => (m, none)
  | k :: ks =>
    let r := (m.nodes k).pop ks
    (⟨wrap 64 (m.n - one r.2.isSome), Function.update m.nodes k r.1⟩, r.2)

/-- The loop over all nodes: the new node, and what is added to the number of entries. -/
def each (dest : Map α) (g : Key → Node α × ℤ) : Map α :=
  ⟨wrap 64 (dest.n + ∑ k, (g k).2), fun k => (g k).1⟩

/-- `imap_union_move`, with the map which is moved from. -/
def unionMove (dest imap : Map α) : Map α × Map α :=
  (if imap.n = 0 then dest
    else dest.each fun k =>
      unionNd id ((imap.nodes k).unionWith id) (dest.nodes k) (imap.nodes k),
    create)

/-- One round of `imap_union_make`. -/
def unionMakeNd (aNd bNd : Node α) : Node α × ℤ :=
  let d := if aNd.data.isSome then aNd.data else bNd.data
  let nd := if aNd.hasNodes then aNd.dup.withData d else .null d 0
  let z := one d.isSome + (if aNd.hasNodes then (nd.sz : ℤ) else 0)
  if bNd.hasNodes then
    if nd.hasNodes then
      let nd' := nd.unionMake bNd
      (nd', z + (nd'.sz - nd.sz))
    else
      let nd' := bNd.dup.withData nd.data
      (nd', z + nd'.sz)
  else (nd, z)

/-- `imap_union_make` into a new map. -/
def unionMake (a b : Map α) : Map α :=
  if a.n = 0 && b.n = 0 then create
  else create.each fun k => unionMakeNd (a.nodes k) (b.nodes k)

def differenceInplace (dest imap : Map α) : Map α :=
  if imap.n = 0 then dest
  else dest.each fun k =>
    differenceNd (imap.nodes k).removeAll (dest.nodes k) (imap.nodes k)

/-- `imap_difference_make` into a new map. -/
def differenceMake [DecidableEq α] (a b : Map α) : Map α :=
  if a.n = 0 then create
  else create.each fun k =>
    differenceMakeNd (a.nodes k).differenceMake (a.nodes k) (b.nodes k)

def intersectionInplace (dest imap : Map α) : Map α :=
  dest.each fun k => intersectionNd (imap.nodes k).keepAll (dest.nodes k) (imap.nodes k)

/-- `imap_intersection_make` into a new map. -/
def intersectionMake (a b : Map α) : Map α :=
  if a.n = 0 || b.n = 0 then create
  else create.each fun k =>
    intersectionMakeNd ((a.nodes k).intersectionMake false) false (a.nodes k) (b.nodes k)

/-- `imap_symmdiff_move`, with the map which is moved from. -/
def symmdiffMove (dest imap : Map α) : Map α × Map α :=
  (if imap.n = 0 then dest
    else dest.each fun k => symmdiffNd (imap.nodes k).toggleAll (dest.nodes k) (imap.nodes k),
    create)

/-- `imap_symmdiff_make` into a new map. -/
def symmdiffMake [DecidableEq α] (a b : Map α) : Map α :=
  if a.n = 0 && b.n = 0 then create
  else create.each fun k => symmdiffMakeNd (a.nodes k).symmdiffMake (a.nodes k) (b.nodes k)

/-- `imap__eq_` -/
def eqNodes [DecidableEq α] (a b : Map α) : Bool :=
  (List.finRange 32).all fun k =>
    (a.nodes k).data = (b.nodes k).data && (a.nodes k).hasNodes = (b.nodes k).hasNodes &&
      (!(a.nodes k).hasNodes || (a.nodes k).eq (b.nodes k))

/-- `imap__le_` -/
def leNodes (a b : Map α) : Bool :=
  (List.finRange 32).all fun k =>
    (!(a.nodes k).data.isSome || (b.nodes k).data.isSome) &&
      (!(a.nodes k).hasNodes || ((b.nodes k).hasNodes && (a.nodes k).le (b.nodes k)))

/-- `imap_eq`; `same` tells that the two are one map. -/
def eq [DecidableEq α] (same : Bool) (a b : Map α) : Bool :=
  same || (a.n = b.n && (a.n = 0 || a.eqNodes b))

def le (same : Bool) (a b : Map α) : Bool :=
  same || a.n = 0 || (a.n ≤ b.n && a.leNodes b)

def lt (same : Bool) (a b : Map α) : Bool :=
  (a.n = 0 && b.n ≠ 0) || (!same && a.n < b.n && a.leNodes b)

end Map

end ThingsDB.Imap
