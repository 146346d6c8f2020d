import Mathlib.Algebra.Ring.Nat
import Mathlib.Data.List.Basic

/-!
# String maps

`util/smap`: a tree whose nodes hold a part of the keys, data and an array of child nodes for the
next byte of the keys. The array covers a window of bytes in steps of 32 and grows to both sides;
the number of child nodes is kept in eight bits, the number of bytes of a part in 32. The calls
with a length and the calls for strings which end with a NUL byte are the same apart from how they
compare: with `cstr` a call reads past the end of its key if the NUL is compared with a NUL of the
node. The result is then undefined, which is `none` here.
-/

namespace ThingsDB.Smap

abbrev Byte := Fin 256

instance Byte.neZero : NeZero 256 := ⟨by decide⟩

/-- `smap_node_t`, or NULL. -/
inductive Node (α : Type) where
  | null
  | node (key : List Byte) (data : Option α) (size offset sz : ℕ) (alloc : Bool)
    (nodes : ℕ → Node α)

namespace Node

variable {α : Type}

def isNull : Node α → Bool
  | .null => true
  | .node _ _ _ _ _ _ _ => false

/-- The bytes of a part which are compared, with their number in the 32 bits of `node->n`. -/
def inBits (part : List Byte) : List Byte := part.take (part.length % 2 ^ 32)

/-- `smap__node_create`; `offset` is `UINT8_MAX`. -/
def create (key : List Byte) (d : α) : Node α :=
  .node (inBits key) (some d) 0 255 0 false fun _ => .null

def covers (offset sz : ℕ) (alloc : Bool) (k : Byte) : Bool :=
  alloc && (offset ≤ k / 32 && k / 32 < offset + sz)

def kid (nd : Node α) (k : Byte) : Node α :=
  match nd with
  | .null => .null
  | .node _ _ _ offset sz alloc nodes =>
    if covers offset sz alloc k then nodes (k - offset * 32) else .null

def resize (nd : Node α) (pos : ℕ) : Node α :=
  match nd with
  | .null => .null
  | .node key d size offset sz alloc nodes =>
    if !alloc then .node key d size pos 1 true fun _ => .null
    else if pos < offset then
      .node key d size pos (sz + (offset - pos)) true fun i =>
        if i < (offset - pos) * 32 then .null else nodes (i - (offset - pos) * 32)
    else if offset + sz ≤ pos then
      .node key d size offset (sz + (pos - offset - sz + 1)) true fun i =>
        if i < sz * 32 then nodes i else .null
    else .node key d size offset sz alloc nodes

def setKid (nd : Node α) (k : Byte) (c : Node α) : Node α :=
  match nd with
  | .null => .null
  | .node key d size offset sz alloc nodes =>
    .node key d size offset sz alloc (Function.update nodes (k - offset * 32) c)

def withData (nd : Node α) (d : Option α) : Node α :=
  match nd with
  | .null => .null
  | .node key _ size offset sz alloc nodes => .node key d size offset sz alloc nodes

def withSize (nd : Node α) (size : ℕ) : Node α :=
  match nd with
  | .null => .null
  | .node key d _ offset sz alloc nodes => .node key d size offset sz alloc nodes

/-- `free(node->nodes)` -/
def freeNodes (nd : Node α) : Node α :=
  match nd with
  | .null => .null
  | .node key d size offset sz _ _ => .node key d size offset sz false fun _ => .null

def store (nd : Node α) (k : Byte) (c : Node α) : Node α := (nd.resize (k / 32)).setKid k c

def common : List Byte → List Byte → ℕ
  | p :: ps, k :: ks => if p = k then common ps ks + 1 else 0
  | _, _ => 0

/-- The NUL at the end of a key is compared with a NUL of the node, and what follows with what is
behind the key. -/
def overruns (cstr : Bool) (part key : List Byte) : Bool := cstr && (key ++ [0]).isPrefixOf part

/-- The node is cut after `m` bytes, and the rest of it becomes its first child node. -/
def split (m : ℕ) (nd : Node α) (key : List Byte) (a : α) : Node α :=
  match nd with
  | .null => .null
  | .node part d size offset sz alloc nodes =>
    match part.drop m with
    | [] => nd
    | p :: rest =>
      let old : Node α := .node rest d size offset sz alloc nodes
      let fresh : ℕ → Node α := fun i => if i = p % 32 then old else .null
      match key.drop m with
      | [] => .node (part.take m) (some a) 1 (p / 32) 1 true fresh
      | k :: ks =>
        (Node.node (part.take m) none 2 (p / 32) 1 true fresh).store k (create ks a)

/-- `smap__add` and `smap__addn`; whether the key is new, `SMAP_ERR_EXIST` if not. -/
def add (cstr : Bool) (a : α) : Node α → List Byte → Option (Node α × Bool)
  | .null, key => some (create key a, true)
  | .node part d size offset sz alloc nodes, key =>
    let nd := Node.node part d size offset sz alloc nodes
    if overruns cstr part key then none
    else if common part key < part.length then some (nd.split (common part key) key a, true)
    else
      match key.drop part.length with
      | [] => some (if d.isSome then (nd, false) else (nd.withData (some a), true))
      | k :: ks =>
        if covers offset sz alloc k && !(nodes (k - offset * 32)).isNull then
          ((nodes (k - offset * 32)).add cstr a ks).map fun r => (nd.store k r.1, r.2)
        else
          some ((nd.store k (create ks a)).withSize (if alloc then (size + 1) % 256 else 1), true)

/-- The loop of `smap_getaddr` and of `smap_getn`. -/
def get (cstr : Bool) : Node α → List Byte → Option (Option α)
  | .null, _ => some none
  | .node part d _ offset sz alloc nodes, key =>
    if overruns cstr part key then none
    else if !part.isPrefixOf key then some none
    else
      match key.drop part.length with
      | [] => some d
      | k :: ks =>
        if covers offset sz alloc k then (nodes (k - offset * 32)).get cstr ks else some none

def mergeNode (nd : Node α) : Node α :=
  match nd with
  | .null => .null
  | .node key _ _ offset sz _ nodes =>
    match (List.range (sz * 32)).find? fun i => !(nodes i).isNull with
    | none => nd
    | some i =>
      match nodes i with
      | .null => nd
      | .node key' d' size' offset' sz' alloc' nodes' =>
        .node (inBits (key ++ Fin.ofNat 256 (i + offset * 32) :: key')) d' size' offset' sz'
          alloc' nodes'

def decNode (nd : Node α) : Node α :=
  match nd with
  | .null => .null
  | .node key d size offset sz alloc nodes =>
    let left := (size + 255) % 256
    let node := Node.node key d left offset sz alloc nodes
    if left = 0 then node.freeNodes
    else if left = 1 && d.isNone then node.mergeNode
    else node

/-- `smap__pop` and `smap__popn`; a node which is cleaned up is NULL afterwards, and the size of its
parent is one less. -/
def pop (cstr : Bool) : Node α → List Byte → Option (Node α × Option α)
  | .null, _ => some (.null, none)
  | .node part d size offset sz alloc nodes, key =>
    let nd := Node.node part d size offset sz alloc nodes
    if overruns cstr part key then none
    else if !part.isPrefixOf key then some (nd, none)
    else
      match key.drop part.length with
      | [] =>
        some (if size = 0 then .null
          else if size = 1 then (nd.withData none).mergeNode
          else nd.withData none, d)
      | k :: ks =>
        if covers offset sz alloc k && !(nodes (k - offset * 32)).isNull then
          ((nodes (k - offset * 32)).pop cstr ks).map fun r =>
            (if r.1.isNull then (nd.setKid k r.1).decNode else nd.setKid k r.1, r.2)
        else some (nd, none)

/-- `smap__items`, with the bytes before the node. -/
def items : Node α → List Byte → List (List Byte × α)
  | .null, _ => []
  | .node part d _ offset sz alloc nodes, buf =>
    d.toList.map (fun a => (buf ++ part, a)) ++
      if alloc then
        (List.range (sz * 32)).flatMap fun i =>
          (nodes i).items (buf ++ part ++ [Fin.ofNat 256 (i + offset * 32)])
      else []

def values : Node α → List α
  | .null => []
  | .node _ d _ _ sz alloc nodes =>
    d.toList ++ if alloc then (List.range (sz * 32)).flatMap fun i => (nodes i).values else []

end Node

end ThingsDB.Smap
