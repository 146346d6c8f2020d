import Mathlib.Algebra.BigOperators.Fin

/-!
# Nodes of an integer map

`util/imap` is a tree whose nodes have either no child nodes, one child node with its key, or all
of the 32 child nodes. Each node holds the data of one id and counts the entries below it in 32
bits. The calls here are those on a node, with the keys of an id as a list; data are counted
references in the source, and the counting is left out.
-/

namespace ThingsDB.Imap

/-- Values below `IMAP_NODE_SZ`. -/
abbrev Key := Fin 32

instance Key.neZero : NeZero 32 := ⟨by decide⟩

/-- `imap_node_t`; the key is 32 for a full node and is not read if `nodes` is NULL. -/
inductive Node (α : Type) where
  | null (data : Option α) (sz : ℕ)
  | single (data : Option α) (sz : ℕ) (key : Key) (nd : Node α)
  | full (data : Option α) (sz : ℕ) (nds : Key → Node α)

/-- Unsigned integers with `w` bits. -/
def wrap (w : ℕ) (z : ℤ) : ℕ := (z % 2 ^ w).toNat

def one (b : Bool) : ℤ := if b then 1 else 0

namespace Node

variable {α : Type}

/-- `imap__empty_node` -/
def empty : Node α := .null none 0

def data : Node α → Option α
  | .null d _ => d
  | .single d _ _ _ => d
  | .full d _ _ => d

def sz : Node α → ℕ
  | .null _ s => s
  | .single _ s _ _ => s
  | .full _ s _ => s

/-- `nodes` is not NULL. -/
def hasNodes : Node α → Bool
  | .null _ _ => false
  | .single _ _ _ _ => true
  | .full _ _ _ => true

def withData (d : Option α) : Node α → Node α
  | .null _ s => .null d s
  | .single _ s k c => .single d s k c
  | .full _ s f => .full d s f

/-- `imap__get_node`, and NULL if there are no nodes. -/
def getNode (nd : Node α) (k : Key) : Option (Node α) :=
  match nd with
  | .null _ _ => none
  | .single _ _ key c => if key = k then some c else none
  | .full _ _ f => some (f k)

def ensureNode (nd : Node α) (k : Key) : Node α := (nd.getNode k).getD empty

def nodeGrow : Node α → Node α
  | .single d s key c => .full d s fun i => if i = key then c else empty
  | nd => nd

/-- Grow if the key is neither that of the only child nor are all children present. -/
def growFor (k : Key) : Node α → Node α
  | .single d s key c => if key = k then .single d s key c else nodeGrow (.single d s key c)
  | nd => nd

/-- Grow if the nodes are not walked with the same keys. -/
def growAs (node dest : Node α) : Node α :=
  match node with
  | .single _ _ key _ => dest.growFor key
  | _ => dest.nodeGrow

/-- `imap__node_size` is `IMAP_NODE_SZ`. -/
def isFull : Node α → Bool
  | .full _ _ _ => true
  | _ => false

def setNode (nd : Node α) (k : Key) (c : Node α) (s : ℕ) : Node α :=
  match nd with
  | .null d _ => .null d s
  | .single d _ key _ => .single d s key c
  | .full d _ f => .full d s (Function.update f k c)

/-- Give the array of nodes back if nothing is left below the node. -/
def freeEmpty (nd : Node α) : Node α := if nd.sz = 0 then .null nd.data 0 else nd

/-- The array of nodes with the key, which `imap__add` makes or grows if it has to. -/
def room (nd : Node α) (k : Key) : Node α :=
  if nd.sz = 0 then .single nd.data 0 k empty else nd.growFor k

/-- `imap__add`; no keys are left at the node which gets the data. -/
def add (a : α) : List Key → Node α → Node α × Bool
  | [], nd => if nd.data.isSome then (nd, false) else (nd.withData (some a), true)
  | k :: ks, nd =>
    let r := ((nd.room k).ensureNode k).add a ks
    ((nd.room k).setNode k r.1 (wrap 32 (nd.sz + one r.2)), r.2)

/-- The loop of `imap_get`. -/
def get : List Key → Node α → Option α
  | [], nd => nd.data
  | k :: ks, nd =>
    match nd.getNode k with
    | none => none
    | some c => c.get ks

def pop : List Key → Node α → Node α × Option α
  | [], nd => (nd.withData none, nd.data)
  | k :: ks, nd =>
    match nd.getNode k with
    | none => (nd, none)
    | some c =>
      match c.pop ks with
      | (_, none) => (nd, none)
      | (c', some a) => ((nd.setNode k c' (wrap 32 (nd.sz - 1))).freeEmpty, some a)

/-- `imap__nodes_dup` for a node with its data. -/
def dup : Node α → Node α
  | .null d _ => .null d 0
  | .single d s k c => .single d s k c.dup
  | .full d s f => .full d s fun i => (f i).dup

section Compare

variable [DecidableEq α]

/-- The tests on two child nodes in `imap__eq`. -/
def eqNd (rec : Node α → Bool) (nda ndb : Node α) : Bool :=
  nda.sz = ndb.sz && nda.data = ndb.data && nda.hasNodes = ndb.hasNodes &&
    (!nda.hasNodes || rec ndb)

/-- `imap__eq`. If only `nodeb` is full then the two change places in the source, which makes no
difference as the tests are the same in both directions. -/
def eq : Node α → Node α → Bool
  | .null _ _, _ => false
  | .single _ _ key nda, nodeb =>
    match nodeb with
    | .null _ _ => false
    | .single _ _ key' ndb => key = key' && eqNd nda.eq nda ndb
    | .full _ _ g =>
      (List.finRange 32).all fun i => if key = i then eqNd nda.eq nda (g i) else (g i).sz = 0
  | .full _ _ f, nodeb =>
    match nodeb with
    | .null _ _ => false
    | .single _ _ key ndb =>
      (List.finRange 32).all fun i => if key = i then eqNd (f i).eq (f i) ndb else (f i).sz = 0
    | .full _ _ g => (List.finRange 32).all fun i => eqNd (f i).eq (f i) (g i)

end Compare

/-- The tests on two child nodes in `imap__le`. -/
def leNd (rec : Node α → Bool) (nda ndb : Node α) : Bool :=
  nda.sz ≤ ndb.sz && (!nda.data.isSome || ndb.data.isSome) &&
    (!nda.hasNodes || (ndb.hasNodes && rec ndb))

def le : Node α → Node α → Bool
  | .null _ _, _ => false
  | .single _ _ key nda, nodeb =>
    match nodeb with
    | .null _ _ => false
    | .single _ _ key' ndb => key = key' && leNd nda.le nda ndb
    | .full _ _ g => leNd nda.le nda (g key)
  | .full _ _ f, nodeb =>
    match nodeb with
    | .null _ _ => false
    | .single _ _ key ndb =>
      (List.finRange 32).all fun i => if key = i then leNd (f i).le (f i) ndb else (f i).sz = 0
    | .full _ _ g => (List.finRange 32).all fun i => leNd (f i).le (f i) (g i)

/-- The loop over the keys of the child nodes of `src`, with the data and the number of entries
which the result starts with: a round gives a child node and what it adds to the number. -/
def loop (src : Node α) (d : Option α) (s : ℕ) (g : Key → Node α → Node α × ℤ) : Node α :=
  match src with
  | .null _ _ => .null d s
  | .single _ _ key c => .single d (wrap 32 (s + (g key c).2)) key (g key c).1
  | .full _ _ f => .full d (wrap 32 (s + ∑ i, (g i (f i)).2)) fun i => (g i (f i)).1

/-- The loop over the child nodes of `dest` itself. -/
def eachNode (dest : Node α) (g : Key → Node α → Node α × ℤ) : Node α :=
  dest.loop dest.data dest.sz g

/-- One round of `imap__union_move` and of `imap__union_make`; the second copies. -/
def unionNd (copy rec : Node α → Node α) (destNd nodeNd : Node α) : Node α × ℤ :=
  let added := nodeNd.data.isSome && destNd.data.isNone
  let destNd := if added then destNd.withData nodeNd.data else destNd
  if nodeNd.hasNodes then
    if destNd.hasNodes then
      let nd := rec destNd
      (nd, one added + (nd.sz - destNd.sz))
    else
      let nd := (copy nodeNd).withData destNd.data
      (nd, one added + nd.sz)
  else (destNd, one added)

/-- The loops of both unions; a node which is not there changes nothing. -/
def unionWith (copy : Node α → Node α) : Node α → Node α → Node α
  | .null _ _, dest => dest
  | .single d s key nd, dest =>
    (growAs (.single d s key nd) dest).eachNode fun i destNd =>
      if key = i then unionNd copy (nd.unionWith copy) destNd nd else (destNd, 0)
  | .full d s f, dest =>
    (growAs (.full d s f) dest).eachNode fun i destNd =>
      unionNd copy ((f i).unionWith copy) destNd (f i)

def unionMove (dest node : Node α) : Node α := node.unionWith id dest

def unionMake (dest node : Node α) : Node α := node.unionWith dup dest

/-- One round of `imap__difference_inplace`. -/
def differenceNd (rec : Node α → Node α) (destNd nodeNd : Node α) : Node α × ℤ :=
  let removed := nodeNd.data.isSome && destNd.data.isSome
  let destNd := if removed then destNd.withData none else destNd
  if nodeNd.hasNodes && destNd.hasNodes then
    let nd := rec destNd
    (nd.freeEmpty, -one removed - (destNd.sz - nd.sz))
  else (destNd, -one removed)

/-- The loop of `imap__difference_inplace`, with the node first. -/
def removeAll : Node α → Node α → Node α
  | .null _ _, dest => dest
  | .single _ _ key nd, dest =>
    dest.eachNode fun i destNd =>
      if key = i then differenceNd nd.removeAll destNd nd else (destNd, 0)
  | .full _ _ f, dest =>
    dest.eachNode fun i destNd => differenceNd (f i).removeAll destNd (f i)

def differenceInplace (dest node : Node α) : Node α := node.removeAll dest

/-- One round of `imap__difference_make`. -/
def differenceMakeNd [DecidableEq α] (rec : Node α → Node α) (aNd bNd : Node α) :
    Node α × ℤ :=
  let kept := aNd.data.isSome && bNd.data.isNone
  let d := if kept then aNd.data else none
  if aNd.hasNodes then
    if !bNd.hasNodes then
      let nd := aNd.dup.withData d
      (nd, one kept + nd.sz)
    else if aNd.sz ≠ bNd.sz || !aNd.eq bNd then
      let nd := (rec bNd).withData d
      (nd, one kept + nd.sz)
    else (.null d 0, one kept)
  else (.null d 0, one kept)

/-- `imap__difference_make` into a node without data. -/
def differenceMake [DecidableEq α] : Node α → Node α → Node α
  | .null _ _, _ => empty
  | .single d s key aNd, b =>
    freeEmpty (loop (.single d s key aNd) none 0 fun i _ =>
      differenceMakeNd aNd.differenceMake aNd (b.ensureNode i))
  | .full d s f, b =>
    freeEmpty (loop (.full d s f) none 0 fun i _ =>
      differenceMakeNd (f i).differenceMake (f i) (b.ensureNode i))

/-- One round of `imap__intersection_inplace`. -/
def intersectionNd (rec : Node α → Node α) (destNd nodeNd : Node α) : Node α × ℤ :=
  let removed := nodeNd.data.isNone && destNd.data.isSome
  let destNd := if removed then destNd.withData none else destNd
  if destNd.hasNodes then
    if nodeNd.hasNodes then
      let nd := rec destNd
      (nd, -one removed - (destNd.sz - nd.sz))
    else (.null destNd.data 0, -one removed - destNd.sz)
  else (destNd, -one removed)

/-- The loop of `imap__intersection_inplace`, with the node first. -/
def keepAll : Node α → Node α → Node α
  | .null _ _, dest => dest
  | .single _ _ key nd, dest =>
    freeEmpty (dest.eachNode fun i destNd =>
      if key = i then intersectionNd nd.keepAll destNd nd else intersectionNd id destNd empty)
  | .full _ _ f, dest =>
    freeEmpty (dest.eachNode fun i destNd => intersectionNd (f i).keepAll destNd (f i))

def intersectionInplace (dest node : Node α) : Node α := node.keepAll dest

/-- One round of `imap__intersection_make`; the data are those of the node which is walked. -/
def intersectionMakeNd (rec : Node α → Node α) (walkB : Bool) (aNd bNd : Node α) :
    Node α × ℤ :=
  let both := aNd.data.isSome && bNd.data.isSome
  let d := if both then (if walkB then bNd.data else aNd.data) else none
  if aNd.hasNodes && bNd.hasNodes then
    let nd := (rec bNd).withData d
    (nd, one both + nd.sz)
  else (.null d 0, one both)

/-- `imap__intersection_make` into a node without data. The smaller of the two nodes is walked,
and of nodes of one size that which was given first; `swapped` tells that this is `b`. -/
def intersectionMake : Bool → Node α → Node α → Node α
  | _, .null _ _, _ => empty
  | swapped, .single d s key aNd, b =>
    let walkB := swapped && !b.isFull
    freeEmpty (loop (if walkB then b else .single d s key aNd) none 0 fun i _ =>
      if key = i then intersectionMakeNd (aNd.intersectionMake walkB) walkB aNd (b.ensureNode i)
      else intersectionMakeNd id walkB empty (b.ensureNode i))
  | swapped, .full d s f, b =>
    let walkB := swapped || !b.isFull
    freeEmpty (loop (if walkB then b else .full d s f) none 0 fun i _ =>
      intersectionMakeNd ((f i).intersectionMake walkB) walkB (f i) (b.ensureNode i))

/-- One round of `imap__symmdiff_move`. -/
def symmdiffNd (rec : Node α → Node α) (destNd nodeNd : Node α) : Node α × ℤ :=
  let change :=
    if nodeNd.data.isSome then (if destNd.data.isSome then -1 else 1) else 0
  let destNd :=
    if nodeNd.data.isSome then
      destNd.withData (if destNd.data.isSome then none else nodeNd.data)
    else destNd
  if nodeNd.hasNodes then
    if destNd.hasNodes then
      let nd := rec destNd
      (nd, change + (nd.sz - destNd.sz))
    else
      let nd := nodeNd.withData destNd.data
      (nd, change + nd.sz)
  else (destNd, change)

/-- The loop of `imap__symmdiff_move`, with the node first. -/
def toggleAll : Node α → Node α → Node α
  | .null _ _, dest => dest
  | .single d s key nd, dest =>
    freeEmpty ((growAs (.single d s key nd) dest).eachNode fun i destNd =>
      if key = i then symmdiffNd nd.toggleAll destNd nd else (destNd, 0))
  | .full d s f, dest =>
    freeEmpty ((growAs (.full d s f) dest).eachNode fun i destNd =>
      symmdiffNd (f i).toggleAll destNd (f i))

def symmdiffMove (dest node : Node α) : Node α := node.toggleAll dest

/-- One round of `imap__symmdiff_make`. -/
def symmdiffMakeNd [DecidableEq α] (rec : Node α → Node α) (aNd bNd : Node α) : Node α × ℤ :=
  let d :=
    if aNd.data.isSome && bNd.data.isNone then aNd.data
    else if aNd.data.isNone && bNd.data.isSome then bNd.data
    else none
  if aNd.hasNodes && bNd.hasNodes && (aNd.sz ≠ bNd.sz || !aNd.eq bNd) then
    let nd := (rec bNd).withData d
    (nd, one d.isSome + nd.sz)
  else if aNd.hasNodes && !bNd.hasNodes then
    let nd := aNd.dup.withData d
    (nd, one d.isSome + nd.sz)
  else if !aNd.hasNodes && bNd.hasNodes then
    let nd := bNd.dup.withData d
    (nd, one d.isSome + nd.sz)
  else (.null d 0, one d.isSome)

/-- `imap__symmdiff_make` into a node without data. -/
def symmdiffMake [DecidableEq α] : Node α → Node α → Node α
  | .null _ _, _ => empty
  | .single d s key aNd, b =>
    (b.growAs (.single d s key aNd)).loop none 0 fun i _ =>
      if key = i then symmdiffMakeNd aNd.symmdiffMake aNd (b.ensureNode i)
      else symmdiffMakeNd id empty (b.ensureNode i)
  | .full d s f, b =>
    (b.growAs (.full d s f)).loop none 0 fun i _ =>
      symmdiffMakeNd (f i).symmdiffMake (f i) (b.ensureNode i)

end Node

end ThingsDB.Imap
