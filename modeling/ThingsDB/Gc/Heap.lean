import ThingsDB.Val
import ThingsDB.Lib.Mark
import ThingsDB.Lib.Transition

/-!
# The garbage collector

`ti_collection_gc` with marking, and what happens to a collection between two runs.
The flag `TI_THING_FLAG_SWEEP` is the set `sweep` of the things which have it. A thing
which loses its last reference is dropped in a step of its own.
-/

namespace ThingsDB.Gc

open Util

mutual

def refs : Val → List ℕ
  | .thing t | .wrap _ t | .wano _ t => [t]
  | .arr _ vec => refsVec vec
  | .set imap => imap.things
  | _ => []

def refsVec : List Val → List ℕ
  | [] => []
  | v :: vec => refs v ++ refsVec vec

end

/-- `ti_gc_t` -/
structure Entry where
  changeId : ℕ
  thing : ℕ
  deriving DecidableEq, Repr

/-- What the collector reads of `ti_collection_t` and of the node. -/
structure Collection where
  root : ℕ
  /-- The members of the enumerators of things. -/
  enums : List ℕ
  /-- The arguments of the tasks. -/
  vtasks : List (List Val)
  /-- The values of a thing, in fields, properties or items. -/
  vals : ℕ → List Val
  things : Imap
  gc : List Entry
  sweep : Finset ℕ
  nextId : ℕ
  ccid : ℕ
  /-- `ti.global_stored_change_id` -/
  scid : ℕ

section Marking

variable (mark : ℕ → Finset ℕ → Finset ℕ)

def markIfSweep (t : ℕ) (u : Finset ℕ) : Finset ℕ := if t ∈ u then mark t u else u

mutual

/-- One element in `collection__gc_mark_varr`. -/
def gcMarkElem : Val → Finset ℕ → Finset ℕ
  | .thing t, u => markIfSweep mark t u
  | .wrap _ t, u => markIfSweep mark t u
  | .arr flags vec, u => if flags.mht then gcMarkVarr vec u else u
  | _, u => u

def gcMarkVarr : List Val → Finset ℕ → Finset ℕ
  | [], u => u
  | v :: vec, u => gcMarkVarr vec (gcMarkElem v u)

end

def gcVal : Val → Finset ℕ → Finset ℕ
  | .thing t, u => markIfSweep mark t u
  | .wrap _ t, u => markIfSweep mark t u
  | .arr flags vec, u => if flags.mht then gcMarkVarr mark vec u else u
  | .set imap, u => imap.things.foldl (fun u t => markIfSweep mark t u) u
  | _, u => u

end Marking

def gcMarkThing (vals : ℕ → List Val) : ℕ → ℕ → Finset ℕ → Finset ℕ
  | 0, _, u => u
  | fuel + 1, t, u => (vals t).foldl (fun u v => gcVal (gcMarkThing vals fuel) v u) (u.erase t)

namespace Collection

variable (c : Collection)

/-- A thing can be in use as long as it is in the collection or in the queue. -/
def Alive (t : ℕ) : Prop := t ∈ c.things ∨ ∃ e ∈ c.gc, e.thing = t

instance (t : ℕ) : Decidable (c.Alive t) :=
  inferInstanceAs (Decidable (t ∈ c.things ∨ ∃ e ∈ c.gc, e.thing = t))

/-- The things without a mark after `do_mark_things`. -/
def markThings : Finset ℕ :=
  let mark := gcMarkThing c.vals (c.sweep.card + 1)
  let u := c.vtasks.foldl (fun u args => args.foldl (fun u v => gcVal mark v u) u) c.sweep
  let u := c.enums.foldl (fun u t => markIfSweep mark t u) u
  mark c.root u

end Collection

/-- The loop over the queue which counts the entries to remove, and clears those things
which are not in use; the flag is set again for what is not stored yet. -/
def clearLoop (scid : ℕ) : List Entry → ℕ → Finset ℕ → (ℕ → List Val) →
    ℕ × Finset ℕ × (ℕ → List Val)
  | [], m, u, vals => (m, u, vals)
  | e :: gc, m, u, vals =>
    if scid < e.changeId then clearLoop scid gc m (insert e.thing u) vals
    else clearLoop scid gc (m + 1) u
      (if e.thing ∈ u then Function.update vals e.thing [] else vals)

/-- The loop over the first entries: a thing is destroyed, or is restored to the
collection. `ti_thing_destroy` takes it out of the map. -/
def shiftLoop : List Entry → Finset ℕ → Imap → Finset ℕ × Imap
  | [], u, things => (u, things)
  | e :: gc, u, things =>
    if e.thing ∈ u then shiftLoop gc (u.erase e.thing) (things.pop e.thing)
    else shiftLoop gc u (things.add e.thing)

/-- `collection__gc_thing` for every thing of the collection. -/
def sweepLoop (ccid : ℕ) : List ℕ → Finset ℕ → List Entry → Finset ℕ × List Entry
  | [], u, gc => (u, gc)
  | t :: ts, u, gc =>
    if t ∈ u then sweepLoop ccid ts u (gc ++ [⟨ccid, t⟩])
    else sweepLoop ccid ts (insert t u) gc

/-- `ti_collection_gc` -/
def collectGarbage (c : Collection) : Collection :=
  let (m, u, vals) := clearLoop c.scid c.gc 0 c.markThings c.vals
  let (u, things) := shiftLoop (c.gc.take m) u c.things
  let gc := c.gc.drop m
  let m := gc.length
  let (u, gc) := sweepLoop c.ccid things.things u gc
  { c with
    vals := vals
    things := (gc.drop m).foldl (fun things e => things.pop e.thing) things
    gc := gc
    sweep := u }

namespace Collection

variable (c : Collection)

def create (t : ℕ) (vals : List Val) : Collection :=
  { c with
    vals := Function.update c.vals t vals
    things := c.things.add t
    sweep := insert t c.sweep
    nextId := t + 1 }

def setVals (t : ℕ) (vals : List Val) : Collection :=
  { c with vals := Function.update c.vals t vals }

/-- `ti_collection_thing_restore_gc`, for the entry it finds. -/
def restore (e : Entry) : Collection :=
  { c with things := c.things.add e.thing, gc := c.gc.erase e }

/-- `ti_thing_destroy`, for a thing which lost its last reference. -/
def drop (t : ℕ) : Collection :=
  { c with things := c.things.pop t, sweep := c.sweep.erase t }

def findThing (t : ℕ) : Collection :=
  if t ∈ c.things then c
  else match c.gc.find? (fun e => e.thing = t) with
    | none => c
    | some e => c.restore e

end Collection

inductive Action where
  /-- A new thing with its values. -/
  | create (t : ℕ) (vals : List Val)
  /-- A change of a property, an item or a list leaves a thing with these values. -/
  | change (t : ℕ) (vals : List Val)
  | find (t : ℕ)
  /-- The last reference to a thing is gone. -/
  | drop (t : ℕ)
  | commit (ccid : ℕ)
  | store (scid : ℕ)
  | gc

def succ (c : Collection) (t : ℕ) : List ℕ := refsVec (c.vals t)

/-- Where the things in use start: the arguments of tasks, members and the root. -/
def roots (c : Collection) : List ℕ := c.vtasks.flatMap refsVec ++ c.enums ++ [c.root]

/-- One action; a value which is stored refers to things which are there, and what is
dropped is not referred to. -/
def step (c : Collection) : Action → Option Collection
  | .create t vals =>
    if c.nextId ≤ t ∧ ∀ x ∈ refsVec vals, c.Alive x ∨ x = t then some (c.create t vals) else none
  | .change t vals =>
    if c.Alive t ∧ ∀ x ∈ refsVec vals, c.Alive x then some (c.setVals t vals) else none
  | .find t => some (c.findThing t)
  | .drop t =>
    if t ∈ c.things ∧ t ∉ roots c ∧ (∀ x ∈ c.things.things, t ∉ succ c x) ∧
        ∀ e ∈ c.gc, t ∉ succ c e.thing then some (c.drop t)
    else none
  | .commit ccid => if c.ccid ≤ ccid then some { c with ccid := ccid } else none
  | .store scid => if c.scid ≤ scid then some { c with scid := scid } else none
  | .gc => some (collectGarbage c)

/-- There is a way to a thing from the root, a member or the argument of a task. -/
def Reachable (c : Collection) (t : ℕ) : Prop := ∃ r ∈ roots c, Mark.Path (succ c) r t

end ThingsDB.Gc
