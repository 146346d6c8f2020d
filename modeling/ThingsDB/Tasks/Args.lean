import ThingsDB.Lib.Replicated
import ThingsDB.Lists.Replica

/-!
# Arguments of tasks

The closure and the arguments of one task on all nodes. A task is created, `set_args` and
`set_closure` change it, and while it runs its first argument is the task itself. The node which
makes a change leaves tasks for the other nodes, which read the arguments from what was packed.
-/

namespace ThingsDB.Tasks.Args

open ThingsDB.Lists Replicated List

structure Closure where
  text : Raw
  params : ℕ
  deriving DecidableEq, Repr

/-- `closure` and `args` of `ti_vtask_t` -/
structure Task where
  closure : Closure
  args : List Val

/-- The calls on the task, with arguments which are evaluated. Without a closure, `set_closure` is
called with the one which the task has. -/
inductive Call where
  | setArgs (vals : List Val)
  | setClosure (closure : Option Closure)
  | del

inductive Emit where
  | new (closure : Closure) (args : List Val)
  | setArgs (args : List Val)
  | setClosure (closure : Closure)
  | del

/-- The changes. A run which finishes with success deletes the task, unless it is run again. -/
inductive Change where
  | create (closure : Closure) (vals : List Val)
  | query (calls : List Call)
  | run (calls : List Call) (done : Bool)

def allowedAsVtaskArg : Tp → Bool
  | .nil | .int | .float | .bool | .datetime | .name | .str | .bytes | .regex => true
  | _ => false

def numArgs (n m : ℕ) : Option Ex :=
  if n ≠ 0 ∧ m ≤ n then
    some ⟨.numArguments, "got " ++ toString n ++ " task argument" ++ (if n = 1 then "" else "s") ++
      " while the given closure takes at most " ++ toString (m - 1) ++ " argument" ++
      (if m = 2 then "" else "s") ++ docSee "collection-api/task"⟩
  else none

/-- What is read besides the task: if the task is in the scope `@thingsdb`, the error of
`ti_closure_unbound`, and the id of the task. -/
structure Scope where
  env : Env
  typeOf : ℕ → Option TypeId
  tiScope : Bool
  unbound : Closure → Option Ex
  id : ℕ

section Code

variable (S : Scope)

def checkArgs (vals : List Val) (m : ℕ) : Option Ex :=
  match numArgs vals.length m with
  | some e => some e
  | none =>
    if S.tiScope then
      (vals.find? fun v => !allowedAsVtaskArg v.tp).map fun v =>
        ⟨.typeError, "type `" ++ v.valStr S.env S.typeOf ++
          "` is not allowed as a task argument in the `@thingsdb` scope" ++
            docSee "collection-api/task"⟩
    else none

/-- Push `nil` to the arguments. -/
def pushNil : ℕ → List Val → List Val
  | 0, args => args
  | m + 1, args => pushNil m (args ++ [.nil])

def pop : ℕ → List Val → List Val
  | 0, args => args
  | m + 1, args => pop m args.dropLast

/-- `vec_set`, where there is no result if the place is not in the vector. -/
def vecSet (args : List Val) (v : Val) (i : ℕ) : Option (List Val) :=
  if i < args.length then some (args.set i v) else none

/-- The arguments in `do__f_task`. -/
def createArgs (c : Closure) (vals : List Val) : Except Ex (List Val) :=
  match checkArgs S vals c.params with
  | some e => .error e
  | none =>
    if c.params = 0 then .ok vals
    else .ok (pushNil (c.params - 1 - vals.length) ([.nil] ++ vals))

/-- The first loop of `do__f_set_args`. -/
def setVals : List Val → ℕ → List Val → Option (List Val × ℕ)
  | args, i, [] => some (args, i)
  | args, i, v :: vals => (vecSet args v i).bind fun args => setVals args (i + 1) vals

def setNils : ℕ → List Val → ℕ → Option (List Val)
  | 0, args, _ => some args
  | k + 1, args, i => (vecSet args .nil i).bind fun args => setNils k args (i + 1)

def storeArgs (args vals : List Val) (m : ℕ) : Option (List Val) :=
  (setVals args 1 vals).bind fun r => setNils (m - r.2) r.1 r.2

def Task.setClosure (t : Task) (c : Closure) : Task :=
  if t.args.length < c.params then ⟨c, pushNil (c.params - t.args.length) t.args⟩
  else if c.params < t.args.length then ⟨c, pop (t.args.length - c.params) t.args⟩
  else ⟨c, t.args⟩

/-- The error of `ti_vtask_lock` for a task which is deleted. -/
def emptyTask : Ex := ⟨.valueError, "empty task"⟩

/-- `do__f_set_args`, `do__f_set_closure` and `do__f_del_vtask`, with the error if the call fails.
There is no result if the code writes outside of the arguments. -/
def call (t : Option Task) (c : Call) : Option (Option Task × List Emit × Option Ex) :=
  match t, c with
  | none, .del => some (none, [], none)
  | none, _ => some (none, [], some emptyTask)
  | some t, .setArgs vals =>
    match checkArgs S vals t.closure.params with
    | some e => some (some t, [], some e)
    | none =>
      (storeArgs t.args vals t.closure.params).map fun args =>
        (some { t with args := args }, [.setArgs args], none)
  | some t, .setClosure none => some (some t, [], none)
  | some t, .setClosure (some c) =>
    match S.unbound c with
    | some e => some (some t, [], some e)
    | none => some (some (t.setClosure c), [.setClosure c], none)
  | some _, .del => some (none, [.del], none)

/-- The calls of a query; what was done before a call fails is kept. -/
def calls : Option Task → List Call → Option (Option Task × List Emit)
  | t, [] => some (t, [])
  | t, c :: cs =>
    (call S t c).bind fun r =>
      (calls r.1 cs).map fun r' => (r'.1, r.2.1 ++ r'.2)

def enter (t : Task) : Task := { t with args := t.args.set 0 (.task S.id) }

/-- Put `nil` back in the first argument, where `n` is the number of arguments at the start. -/
def leave (n : ℕ) : Option Task → Option (Option Task)
  | none => some none
  | some t =>
    if n = 0 then some (some t)
    else (vecSet t.args .nil 0).map fun args => some { t with args }

/-- `ti_query_run_task`, where `run_at` is not zero. -/
def runTask (t : Task) (cs : List Call) : Option (Option Task × List Emit) :=
  (calls S (some (enter S t)) cs).bind fun r =>
    (leave t.args.length r.1).map fun t' => (t', r.2)

/-- What a change does with the task, and what is left for the other nodes. A new task has another
id if there is one. -/
def exec (t : Option Task) : Change → Option (Option Task × List Emit)
  | .create c vals =>
    match t with
    | some t => some (some t, [])
    | none =>
      match S.unbound c, createArgs S c vals with
      | none, .ok args => some (some ⟨c, args⟩, [.new c args])
      | _, _ => some (none, [])
  | .query cs => calls S t cs
  | .run cs done =>
    match t with
    | none => some (none, [])
    | some t =>
      (runTask S t cs).map fun r =>
        match r.1 with
        | some t => if done then (none, r.2 ++ [.del]) else (some t, r.2)
        | none => r

/-- The arguments which another node reads from the array which was packed. -/
def readArgs (args : List Val) : Option (List Val) :=
  (decodeVec ⟨false, false, false⟩ args).map Prod.snd

/-- The tasks on another node. A task of which the arguments are not read fails. -/
def replay (t : Option Task) : Emit → Option Task
  | .new c args => ((readArgs args).map fun args => ⟨c, args⟩) <|> t
  | .setArgs args => t.map fun t => { t with args := (readArgs args).getD t.args }
  | .setClosure c => t.map fun t => t.setClosure c
  | .del => none

/-- Steps of the nodes. A run without side effects is not a change. -/
inductive Op (ν : Type) where
  | exec (i : ν) (c : Change)
  | replay (i : ν)
  | peek (i : ν)

/-- A change is made by a node which has seen all changes before it. -/
def step {ν : Type} [DecidableEq ν] (s : Net ν (Option Task) Emit) :
    Op ν → Option (Net ν (Option Task) Emit)
  | .exec i c =>
    if s.pos i = s.log.length then
      (exec S (s.copy i) c).map fun r => s.commit i r.1 r.2
    else some s
  | .replay i => some (s.replay replay i)
  | .peek i =>
    (exec S (s.copy i) (.run [] false)).map fun r => s.touch i r.1

end Code

section Vectors

variable {args vals : List Val} {v : Val} {m : ℕ}

theorem pushNil_eq (m : ℕ) (args : List Val) : pushNil m args = args ++ replicate m .nil := by
  induction m generalizing args with
  | zero => simp [pushNil]
  | succ m ih => rw [pushNil, ih, append_assoc, replicate_succ, singleton_append]

theorem pop_eq (m : ℕ) (args : List Val) : pop m args = args.take (args.length - m) := by
  induction m generalizing args with
  | zero => simp [pop]
  | succ m ih =>
    rw [pop, ih, length_dropLast, dropLast_eq_take, take_take]
    congr 1
    omega

theorem args_setClosure (t : Task) (c : Closure) : (t.setClosure c).args =
    t.args.take c.params ++ replicate (c.params - t.args.length) .nil := by
  unfold Task.setClosure
  split_ifs with hgrow hshrink
  · rw [pushNil_eq, take_of_length_le hgrow.le]
  · rw [pop_eq, Nat.sub_sub_self hshrink.le, Nat.sub_eq_zero_of_le hshrink.le]
    simp
  · have hlen : t.args.length = c.params := by omega
    rw [take_of_length_le hlen.le, hlen]
    simp

@[simp] theorem closure_setClosure (t : Task) (c : Closure) : (t.setClosure c).closure = c := by
  unfold Task.setClosure
  split_ifs <;> rfl

theorem vecSet_append (head rest : List Val) (v w : Val) :
    vecSet (head ++ w :: rest) v head.length = some (head ++ [v] ++ rest) := by
  simp [vecSet]

theorem setVals_append (head rest : List Val) (h : vals.length ≤ rest.length) :
    setVals (head ++ rest) head.length vals =
      some (head ++ vals ++ rest.drop vals.length, head.length + vals.length) := by
  induction vals generalizing head rest with
  | nil => simp [setVals]
  | cons v vals ih =>
    cases rest with
    | nil => simp at h
    | cons w rest =>
      have hrec := ih (head ++ [v]) rest (by simpa using h)
      rw [length_append, length_singleton] at hrec
      rw [setVals, vecSet_append, Option.bind_some, hrec]
      simp
      omega

theorem setNils_append (head rest : List Val) (h : m ≤ rest.length) :
    setNils m (head ++ rest) head.length = some (head ++ replicate m .nil ++ rest.drop m) := by
  induction m generalizing head rest with
  | zero => simp [setNils]
  | succ m ih =>
    cases rest with
    | nil => simp at h
    | cons w rest =>
      have hrec := ih (head ++ [Val.nil]) rest (by simpa using h)
      rw [length_append, length_singleton] at hrec
      rw [setNils, vecSet_append, Option.bind_some, hrec]
      simp [replicate_succ]

/-- `set_args` keeps the first argument and replaces all others. -/
theorem storeArgs_eq (hlen : args.length = m) (hvals : vals.length < m ∨ vals = []) :
    storeArgs args vals m =
      some (args.take 1 ++ vals ++ replicate (m - 1 - vals.length) .nil) := by
  cases args with
  | nil =>
    obtain rfl : m = 0 := hlen.symm
    obtain rfl : vals = [] := by simpa using hvals
    rfl
  | cons first rest =>
    have hrest : vals.length ≤ rest.length := by
      rw [length_cons] at hlen
      rcases hvals with hlt | rfl
      · omega
      · simp
    rw [length_cons] at hlen
    have hset := setVals_append [first] rest hrest
    have hnils :=
      setNils_append (m := m - 1 - vals.length) ([first] ++ vals) (rest.drop vals.length)
      (by rw [length_drop]; omega)
    rw [length_append, length_singleton] at hnils
    have hrounds : m - (1 + vals.length) = m - 1 - vals.length := by omega
    have hdrop : (rest.drop vals.length).drop (m - 1 - vals.length) = [] := by
      rw [drop_drop]
      exact drop_eq_nil_of_le (by omega)
    rw [length_singleton] at hset
    rw [storeArgs, ← singleton_append, hset, Option.bind_some]
    simp only [hrounds]
    rw [hnils, hdrop, append_nil]
    rfl

end Vectors

end ThingsDB.Tasks.Args
