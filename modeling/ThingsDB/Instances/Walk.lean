import ThingsDB.Val
import ThingsDB.Lib.Mark

/-!
# The walk over the things without an id

`ti_query_vars_walk` finds the things without an id from the variables of a query, the
arguments of futures and the arguments of tasks. Things and futures are the nodes of a
graph; a thing with an id is not entered.
-/

namespace ThingsDB.Instances

open Util Mark List

inductive Node where
  | thing (t : ℕ)
  | future (i : ℕ)
  deriving DecidableEq, Repr

/-- The things in memory, and where they are held. -/
structure Memory where
  /-- The type of an instance; other things have none. -/
  typeOf : ℕ → Option TypeId
  /-- The id, which is zero for a thing which is not stored. -/
  id : ℕ → ℕ
  items : ℕ → List Val
  /-- The value of a future, if it has one. -/
  futureVal : ℕ → Option Val
  nodes : Finset Node
  things : Imap
  gc : List ℕ
  vars : List Val
  futures : List (List Val)
  vtasks : List (List Val)
  /-- The values which are held by the expression which is evaluated, and by other queries
  which wait for a future. -/
  held : List Val

mutual

def refs : Val → List Node
  | .thing t | .wrap _ t | .wano _ t => [.thing t]
  | .arr _ vec => refsVec vec
  | .set imap => imap.things.map .thing
  | .future i => [.future i]
  | _ => []

def refsVec : List Val → List Node
  | [] => []
  | v :: vec => refs v ++ refsVec vec

end

mutual

/-- What `ti_val_gen_ids` follows. -/
def genRefs : Val → List Node
  | .thing t | .wrap _ t | .wano _ t => [.thing t]
  | .arr flags vec => if flags.mht ∨ flags.mhr then genRefsVec vec else []
  | .set imap => imap.things.map .thing
  | _ => []

def genRefsVec : List Val → List Node
  | [] => []
  | v :: vec => genRefs v ++ genRefsVec vec

end

def Node.things : Node → Finset ℕ
  | .thing t => {t}
  | .future _ => ∅

namespace Memory

variable (m : Memory)

def content : Node → List Val
  | .thing t => m.items t
  | .future i => (m.futureVal i).toList

def isOpen : Node → Bool
  | .thing t => m.id t = 0
  | .future _ => true

section Walk

variable (visit : Node → Finset Node → Finset Node)

/-- A thing with an id, and one which was found before, is left alone. -/
def enter (n : Node) (u : Finset Node) : Finset Node :=
  if m.isOpen n then if n ∈ u then visit n u else u else u

mutual

/-- `query__get_things`, where `u` are the nodes which are not found yet. -/
def getThings : Val → Finset Node → Finset Node
  | .thing t, u => m.enter visit (.thing t) u
  | .wrap _ t, u => m.enter visit (.thing t) u
  | .wano _ t, u => m.enter visit (.thing t) u
  | .arr flags vec, u => if flags.mht then getThingsVec vec u else u
  | .set imap, u => imap.things.foldl (fun u t => m.enter visit (.thing t) u) u
  | .future i, u => m.enter visit (.future i) u
  | _, u => u

def getThingsVec : List Val → Finset Node → Finset Node
  | [], u => u
  | v :: vec, u => getThingsVec vec (getThings v u)

end

end Walk

/-- `query__var_walk_thing`, and the case of a future -/
def varWalk : ℕ → Node → Finset Node → Finset Node
  | 0, _, u => u
  | fuel + 1, n, u => m.getThingsVec (varWalk fuel) (m.content n) (u.erase n)

/-- The nodes which are not found by `ti_query_vars_walk`. -/
def varsWalk : Finset Node :=
  let walk := m.getThingsVec (m.varWalk (m.nodes.card + 1))
  let u := walk m.vars m.nodes
  let u := m.futures.foldl (fun u args => walk args u) u
  m.vtasks.foldl (fun u args => walk args u) u

/-- The things for which the callback of `ti_query_vars_walk` is called. -/
def inVars (t : ℕ) : Bool := .thing t ∈ m.nodes ∧ .thing t ∉ m.varsWalk

/-- The things which get an id by `ti_val_gen_ids`. A thing with an id is not entered. -/
def newThings (v : Val) : Finset ℕ :=
  let succ n := (genRefsVec (m.content n)).filter m.isOpen
  (m.nodes \ visitAll (visit succ (m.nodes.card + 1)) ((genRefs v).filter m.isOpen) m.nodes).biUnion
    Node.things

mutual

def seen : Val → List Node
  | .thing t | .wrap _ t | .wano _ t => [Node.thing t].filter m.isOpen
  | .arr flags vec => if flags.mht then seenVec vec else []
  | .set imap => (imap.things.map Node.thing).filter m.isOpen
  | .future i => [.future i]
  | _ => []

def seenVec : List Val → List Node
  | [] => []
  | v :: vec => seen v ++ seenVec vec

end

def varRoots : List Node :=
  m.seenVec m.vars ++ m.futures.flatMap m.seenVec ++ m.vtasks.flatMap m.seenVec

def Seen (n : Node) : Prop := ∃ r ∈ m.varRoots, Path (fun n => m.seenVec (m.content n)) r n

def holders : List Node :=
  m.things.things.map .thing ++ m.gc.map .thing ++ refsVec m.vars ++ m.futures.flatMap refsVec ++
    m.vtasks.flatMap refsVec ++ refsVec m.held

def Live (t : ℕ) : Prop := ∃ r ∈ m.holders, Path (fun n => refsVec (m.content n)) r (.thing t)

/-- There is a way to the thing or to the future. -/
def LiveNode (n : Node) : Prop := ∃ r ∈ m.holders, Path (fun n => refsVec (m.content n)) r n

/-- What holds between two statements. -/
structure Wf : Prop where
  things_id : ∀ t ∈ m.things, m.id t ≠ 0
  gc_id : ∀ t ∈ m.gc, m.id t ≠ 0 ∧ t ∉ m.things
  gc_nodup : m.gc.Nodup
  nodes : ∀ n, m.LiveNode n → n ∈ m.nodes

def withIds (id : ℕ → ℕ) (things : Imap) : Memory := { m with id := id, things := things }

end Memory

section Walk

variable (m : Memory) (visit : Node → Finset Node → Finset Node)

theorem enter_eq (n : Node) (u : Finset Node) :
    m.enter visit n u = visitAll visit ([n].filter m.isOpen) u := by
  unfold Memory.enter
  split_ifs with hopen hmem
  · simp [hopen, visitAll, hmem]
  · simp [hopen, visitAll, hmem]
  · simp [hopen, visitAll]

theorem foldl_enter (ts : List ℕ) (u : Finset Node) :
    ts.foldl (fun u t => m.enter visit (.thing t) u) u =
      visitAll visit ((ts.map Node.thing).filter m.isOpen) u := by
  induction ts generalizing u with
  | nil => rfl
  | cons t ts ih =>
    rw [foldl_cons, ih, enter_eq, ← visitAll_append, ← filter_append]
    rfl

mutual

theorem getThings_eq (v : Val) (u : Finset Node) :
    m.getThings visit v u = visitAll visit (m.seen v) u := by
  cases v with
  | thing | wrap | wano => exact enter_eq m visit _ u
  | future i => exact enter_eq m visit (.future i) u
  | arr flags vec =>
    rw [Memory.getThings, Memory.seen]
    split_ifs
    · exact getThingsVec_eq vec u
    · rfl
  | set imap => exact foldl_enter m visit imap.things u
  | _ => rfl

theorem getThingsVec_eq (vec : List Val) (u : Finset Node) :
    m.getThingsVec visit vec u = visitAll visit (m.seenVec vec) u := by
  cases vec with
  | nil => rfl
  | cons v vec =>
    rw [Memory.getThingsVec, Memory.seenVec, visitAll_append, getThings_eq v, getThingsVec_eq vec]

end

theorem varWalk_eq (fuel : ℕ) :
    m.varWalk fuel = Mark.visit (fun n => m.seenVec (m.content n)) fuel := by
  induction fuel with
  | zero => rfl
  | succ fuel ih =>
    funext n u
    rw [Memory.varWalk, Mark.visit, getThingsVec_eq, ih]

theorem foldl_getThingsVec (args : List (List Val)) (u : Finset Node) :
    args.foldl (fun u args => m.getThingsVec visit args u) u =
      visitAll visit (args.flatMap m.seenVec) u := by
  induction args generalizing u with
  | nil => rfl
  | cons vec args ih =>
    rw [foldl_cons, ih, getThingsVec_eq, ← visitAll_append]
    rfl

end Walk

variable {m : Memory}

theorem marks_varsWalk (m : Memory) :
    Marks (fun n => m.seenVec (m.content n)) m.varRoots m.nodes m.varsWalk := by
  simp only [Memory.varsWalk, foldl_getThingsVec]
  rw [varWalk_eq, getThingsVec_eq, ← visitAll_append, ← visitAll_append, ← append_assoc]
  exact marks_walk _ _

mutual

theorem mem_seen (m : Memory) (v : Val) : ∀ n ∈ m.seen v, n ∈ refs v ∧ m.isOpen n := by
  intro n hn
  cases v with
  | thing | wrap | wano | set => exact mem_filter.mp hn
  | arr flags vec =>
    rw [Memory.seen] at hn
    split_ifs at hn
    · exact mem_seenVec m vec n hn
    · exact absurd hn not_mem_nil
  | future i => exact ⟨hn, mem_singleton.mp hn ▸ rfl⟩
  | _ => exact absurd hn not_mem_nil

theorem mem_seenVec (m : Memory) (vec : List Val) :
    ∀ n ∈ m.seenVec vec, n ∈ refsVec vec ∧ m.isOpen n := by
  intro n hn
  cases vec with
  | nil => exact absurd hn not_mem_nil
  | cons v vec =>
    rcases mem_append.mp hn with hn | hn
    · exact (mem_seen m v n hn).imp_left (mem_append_left _)
    · exact (mem_seenVec m vec n hn).imp_left (mem_append_right _)

end

theorem isOpen_of_seen {n : Node} (h : m.Seen n) : m.isOpen n := by
  obtain ⟨r, hr, hpath⟩ := h
  cases hpath with
  | refl =>
    simp only [Memory.varRoots, mem_append, mem_flatMap] at hr
    rcases hr with (hr | ⟨args, -, hr⟩) | ⟨args, -, hr⟩
    all_goals exact (mem_seenVec m _ n hr).2
  | tail _ hstep => exact (mem_seenVec m _ n hstep).2

theorem id_of_mem_newThings {v : Val} {t : ℕ} (h : t ∈ m.newThings v) : m.id t = 0 := by
  obtain ⟨n, hn, ht⟩ := Finset.mem_biUnion.mp h
  cases n with
  | future i => exact absurd ht (Finset.notMem_empty t)
  | thing u =>
    obtain rfl := Finset.mem_singleton.mp ht
    obtain ⟨hmem, hnot⟩ := Finset.mem_sdiff.mp hn
    obtain ⟨r, hr, hpath⟩ := (marks_walk _ _).path _ hmem hnot
    cases hpath with
    | refl => simpa [Memory.isOpen] using (mem_filter.mp hr).2
    | tail _ hstep => simpa [Memory.isOpen] using (mem_filter.mp hstep).2

theorem inVars_iff (hnodes : ∀ n, m.Seen n → n ∈ m.nodes) {t : ℕ} :
    m.inVars t ↔ m.Seen (.thing t) := by
  have hmarks := marks_varsWalk m
  have hall : ∀ r ∈ m.varRoots, ∀ n, Path (fun n => m.seenVec (m.content n)) r n → n ∈ m.nodes :=
    fun r hr n hpath => hnodes n ⟨r, hr, hpath⟩
  rw [Memory.inVars, decide_eq_true_eq]
  constructor
  · rintro ⟨hmem, hnot⟩
    exact (hmarks.notMem_iff hall hmem).mp hnot
  · intro hseen
    exact ⟨hnodes _ hseen, (hmarks.notMem_iff hall (hnodes _ hseen)).mpr hseen⟩

/-- What the walk finds is live, also after other things got an id. -/
theorem Memory.Seen.liveNode {n : Node} {id : ℕ → ℕ} {things : Imap}
    (h : (m.withIds id things).Seen n) : m.LiveNode n := by
  obtain ⟨r, hr, hpath⟩ := h
  have hrefs := fun vec n hn => (mem_seenVec (m.withIds id things) vec n hn).1
  have hholder : r ∈ m.holders := by
    simp only [varRoots, holders, mem_append, mem_flatMap] at hr ⊢
    rcases hr with (hr | ⟨args, hargs, hr⟩) | ⟨args, hargs, hr⟩
    · exact .inl (.inl (.inl (.inr (hrefs _ r hr))))
    · exact .inl (.inl (.inr ⟨args, hargs, hrefs _ r hr⟩))
    · exact .inl (.inr ⟨args, hargs, hrefs _ r hr⟩)
  exact ⟨r, hholder, Relation.ReflTransGen.mono (fun _ b hb => hrefs _ b hb) r n hpath⟩

end ThingsDB.Instances
