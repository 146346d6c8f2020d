import ThingsDB.Lib.Replicated

/-!
# Cancelling a task before it runs

A run of a task from `ti_vtask_run` to the change which finishes it, while other queries cancel the
task. The task is on every node; the run takes place on one of them. A closure with side effects
runs in a change, in the order of the changes, and any other closure runs as soon as the node gets
to it. Queries which delete the task are left out.
-/

namespace ThingsDB.Tasks.Cancel

open Replicated List

def exCancelled : ℤ := -64

/-- `ti_vtask_t` with the code of its error and its flags. The last flag has the value of
`TI_QUERY_FLAG_TASK_CHANGES`. -/
structure Vtask where
  runAt : ℕ
  verr : Option ℤ
  running : Bool
  again : Bool
  taskChanges : Bool
  deriving DecidableEq, Repr

inductive Emit where
  | cancel
  | del
  | finish (runAt : ℕ) (verr : ℤ)
  deriving DecidableEq, Repr

def Vtask.cancel (t : Vtask) : Vtask := { t with runAt := 0, verr := some exCancelled }

def Vtask.againAt (t : Vtask) (runAt : ℕ) : Vtask := { t with runAt := runAt, again := true }

/-- The flags in `ti_tasks_vtask_finish`. -/
def Vtask.clearFlags (t : Vtask) : Vtask := { t with running := false, again := false }

def replay (t : Option Vtask) : Emit → Option Vtask
  | .cancel => t.map Vtask.cancel
  | .del => none
  | .finish runAt verr => t.map fun t => { t.clearFlags with runAt := runAt, verr := some verr }

def cancel : Option Vtask → Option Vtask × List Emit
  | some t => if t.runAt = 0 then (some t, []) else (some t.cancel, [.cancel])
  | none => (none, [])

inductive Act where
  | again (runAt : ℕ)
  | cancel
  deriving DecidableEq, Repr

/-- The closure: what it does with the task, the number of its error, and if there are futures. -/
structure Body where
  acts : List Act
  err : ℤ
  futures : Bool
  deriving DecidableEq, Repr

def act (t : Vtask) : Act → Vtask × List Emit
  | .again runAt => (t.againAt runAt, [])
  | .cancel => if t.runAt = 0 then (t, []) else (t.cancel, [.cancel])

def runActs : Vtask → List Act → Vtask × List Emit
  | t, [] => (t, [])
  | t, a :: as => ((runActs (act t a).1 as).1, (act t a).2 ++ (runActs (act t a).1 as).2)

def taskFinish (t : Vtask) (err : ℤ) (setErr : Bool) : Option Vtask × List Emit :=
  let t := if t.again then t else { t with runAt := 0 }
  if t.runAt = 0 ∧ err = 0 then (none, [.del])
  else
    let t := if setErr then { t with verr := some err } else t
    (some t.clearFlags, [.finish t.runAt (t.verr.getD 0)])

/-- Where the query of a run is: forwarded to another node, waiting for its change or for the loop,
waiting for futures, waiting for the change which finishes it. -/
inductive Stage where
  | forwarded
  | waiting
  | futures
  | finishing
  | done
  deriving DecidableEq, Repr

/-- The query of a run with its flag `TI_QUERY_FLAG_TASK_CHANGES`, and what happened: the closure
was executed, and `cancel` was called after the initiation and before the start. -/
structure Run (ν : Type) where
  node : ν
  wse : Bool
  stage : Stage
  taskChanges : Bool
  executed : Bool
  cancelled : Bool
  deriving DecidableEq, Repr

structure State (ν : Type) where
  net : Net ν (Option Vtask) Emit
  run : Option (Run ν)

/-- The steps: a query with `cancel`, the tasks of the next change on a node, `ti_vtask_run` on one
node for a run on a node, the package with a task which is forwarded, the start of the run, the end
of its futures, and the change which finishes it. -/
inductive Op (ν : Type) where
  | cancel (i : ν)
  | replay (i : ν)
  | initiate (i target : ν) (wse : Bool)
  | receive
  | start (body : Body)
  | futures (err : ℤ)
  | finish

section Steps

variable {ν : Type} [DecidableEq ν] (s : State ν)

/-- `cancel` is called between the initiation and the start of the run. -/
def Run.noteCancel (r : Run ν) : Run ν :=
  if r.stage = .forwarded ∨ r.stage = .waiting then { r with cancelled := true } else r

def State.cancel (i : ν) : State ν :=
  if s.net.pos i = s.net.log.length then
    let r := Cancel.cancel (s.net.copy i)
    ⟨s.net.commit i r.1 r.2, s.run.map Run.noteCancel⟩
  else s

/-- Set `TI_VTASK_FLAG_RUNNING`. -/
def setRunning (net : Net ν (Option Vtask) Emit) (i : ν) : Net ν (Option Vtask) Emit :=
  net.touch i ((net.copy i).map fun t => { t with running := true })

/-- The timer starts a task which has a time and is not running; a node which is not ready
forwards the task. -/
def State.initiate (i target : ν) (wse : Bool) : State ν :=
  match s.run, s.net.copy i with
  | none, some t =>
    if t.runAt ≠ 0 ∧ t.running = false then
      let stage := if i = target then Stage.waiting else .forwarded
      ⟨setRunning s.net i, some ⟨target, wse, stage, false, false, false⟩⟩
    else s
  | _, _ => s

def State.receive (r : Run ν) : State ν :=
  if r.stage = .forwarded then ⟨setRunning s.net r.node, some { r with stage := .waiting }⟩ else s

def State.taskResult (r : Run ν) (err : ℤ) : State ν :=
  if r.taskChanges then { s with run := some { r with stage := .done } }
  else
    ⟨s.net.touch r.node ((s.net.copy r.node).map fun t => { t with verr := some err }),
      some { r with stage := .finishing }⟩

/-- `ti_query_done` for a run: futures are started unless there is an error. -/
def State.queryDone (r : Run ν) (err : ℤ) (futures : Bool) : State ν :=
  if futures ∧ err = 0 then { s with run := some { r with stage := .futures } }
  else s.taskResult r err

/-- The part of `ti_query_run_task` which executes the closure. A closure without side effects
does nothing with the task, and has no change. -/
def State.execute (r : Run ν) (t : Vtask) (body : Body) : State ν :=
  let r := { r with executed := true }
  if r.wse then
    let a := runActs t body.acts
    if body.futures then
      State.queryDone ⟨s.net.commit r.node (some a.1) a.2, s.run⟩ r body.err true
    else
      let f := taskFinish a.1 body.err true
      State.queryDone ⟨s.net.commit r.node f.1 (a.2 ++ f.2), s.run⟩ { r with taskChanges := true }
        body.err false
  else s.queryDone r body.err body.futures

/-- `ti_query_run_task`. If the task has no time, then the flag is set on the task and not on the
query. -/
def State.runTask (r : Run ν) (body : Body) : State ν :=
  match s.net.copy r.node with
  | some t =>
    if t.runAt = 0 then
      State.queryDone ⟨s.net.touch r.node (some { t with taskChanges := true }), s.run⟩ r 0 false
    else s.execute r t body
  | none => s.queryDone r 0 false

/-- A run with side effects starts when the node has seen all changes before it. -/
def State.start (r : Run ν) (body : Body) : State ν :=
  if r.stage = .waiting ∧ (r.wse = true → s.net.pos r.node = s.net.log.length) then s.runTask r body
  else s

def State.finish (r : Run ν) : State ν :=
  if r.stage = .finishing ∧ s.net.pos r.node = s.net.log.length then
    match s.net.copy r.node with
    | some t =>
      let err := t.verr.getD 0
      let f := taskFinish t err false
      State.taskResult ⟨s.net.commit r.node f.1 f.2, s.run⟩ { r with taskChanges := true } err
    | none =>
      State.taskResult ⟨s.net.commit r.node none [], s.run⟩ { r with taskChanges := true } 0
  else s

def step : Op ν → State ν
  | .cancel i => s.cancel i
  | .replay i => { s with net := s.net.replay replay i }
  | .initiate i target wse => s.initiate i target wse
  | .receive => s.run.elim s s.receive
  | .start body => s.run.elim s fun r => s.start r body
  | .futures err =>
    s.run.elim s fun r => if r.stage = .futures then s.taskResult r err else s
  | .finish => s.run.elim s s.finish

end Steps

def Alike (t u : Vtask) : Prop := t.runAt = u.runAt ∧ t.again = false

def Zero (t : Option Vtask) : Prop := ∀ u, t = some u → u.runAt = 0

section Calm

variable {ν : Type} {t₀ : Vtask} {net : Net ν (Option Vtask) Emit} {i : ν} {c : Option Vtask}
  {es : List Emit}

abbrev atEnd (t₀ : Vtask) (net : Net ν (Option Vtask) Emit) : Option Vtask :=
  ofLog replay (some t₀) net.log

/-- The nodes as long as no run has changed the task: after the task has lost its time, nothing
more is left for the other nodes. -/
structure Calm (t₀ : Vtask) (net : Net ν (Option Vtask) Emit) : Prop where
  sync : InSync replay (Option.Rel Alike) (fun t => t.isSome = true) (some t₀) net
  empty : ∀ k, Zero (ofLog replay (some t₀) (net.log.take k)) → ∀ es ∈ net.log.drop k, es = []

theorem alike_replay (a b : Option Vtask) (e : Emit) (h : Option.Rel Alike a b) :
    Option.Rel Alike (replay a e) (replay b e) := by
  cases h with
  | none => cases e <;> exact .none
  | some h =>
    cases e with
    | cancel => exact .some ⟨rfl, h.2⟩
    | del => exact .none
    | finish runAt verr => exact .some ⟨rfl, rfl⟩

theorem ofLog_of_empty {log : List (List Emit)} {k : ℕ} (h : ∀ es ∈ log.drop k, es = []) :
    ofLog replay (some t₀) log = ofLog replay (some t₀) (log.take k) := by
  have hdrop : ∀ (l : List (List Emit)) (c : Option Vtask), (∀ es ∈ l, es = []) →
      l.foldl (fun c es => es.foldl replay c) c = c := by
    intro l
    induction l with
    | nil => exact fun _ _ => rfl
    | cons es l ih =>
      intro c hl
      obtain ⟨rfl, hrest⟩ := forall_mem_cons.mp hl
      exact ih c hrest
  conv_lhs => rw [← take_append_drop k log, ofLog, foldl_append]
  exact hdrop _ _ h

theorem Calm.zero_atEnd (h : Calm t₀ net) {k : ℕ}
    (hz : Zero (ofLog replay (some t₀) (net.log.take k))) : Zero (atEnd t₀ net) := by
  rw [atEnd, ofLog_of_empty (h.empty k hz)]
  exact hz

theorem Calm.copy (h : Calm t₀ net) (i : ν) :
    ∃ t u, net.copy i = some t ∧ ofLog replay (some t₀) (net.log.take (net.pos i)) = some u ∧
      t.runAt = u.runAt ∧ t.again = false := by
  have hfollows := h.sync.follows i
  have hsome := h.sync.good (net.pos i)
  generalize hr : ofLog replay (some t₀) (net.log.take (net.pos i)) = r at hfollows hsome
  cases hc : net.copy i with
  | none =>
    rw [hc] at hfollows
    cases hfollows
    cases hsome
  | some t =>
    rw [hc] at hfollows
    cases hfollows with
    | some halike => exact ⟨t, _, rfl, rfl, halike⟩

variable [DecidableEq ν]

section

variable (h : Calm t₀ net)

include h

theorem Calm.replay (i : ν) : Calm t₀ (net.replay replay i) := by
  refine ⟨h.sync.replay alike_replay i, ?_⟩
  rw [Net.log_replay]
  exact h.empty

theorem Calm.touch
    (hstep : ∀ t, net.copy i = some t →
      ∃ t', c = some t' ∧ t'.runAt = t.runAt ∧ t'.again = t.again) :
    Calm t₀ (net.touch i c) := by
  refine ⟨h.sync.touch fun r hr _ => ?_, h.empty⟩
  obtain ⟨t, -, ht, -⟩ := h.copy i
  obtain ⟨t', rfl, hrun, hagain⟩ := hstep t ht
  rw [ht] at hr
  cases hr with
  | some halike => exact .some ⟨hrun.trans halike.1, hagain.trans halike.2⟩

theorem Calm.commit (hi : net.pos i = net.log.length)
    (hes : es = [] ∨ ¬ Zero (atEnd t₀ net))
    (hstep : ∀ r, Option.Rel Alike (net.copy i) r → r.isSome →
      Option.Rel Alike c (es.foldl Cancel.replay r) ∧ (es.foldl Cancel.replay r).isSome) :
    Calm t₀ (net.commit i c es) := by
  refine ⟨h.sync.commit hi hstep, fun k hz es' hmem => ?_⟩
  simp only [Net.commit] at hz hmem
  rcases Nat.lt_or_ge net.log.length k with hk | hk
  · rw [drop_of_length_le (by simpa using hk)] at hmem
    cases hmem
  · rw [take_append_of_le_length hk] at hz
    rw [drop_append_of_le_length hk, mem_append, mem_singleton] at hmem
    rcases hmem with hold | rfl
    · exact h.empty k hz es' hold
    · rcases hes with rfl | hnot
      · rfl
      · exact absurd (h.zero_atEnd hz) hnot

/-- The node of a query which cancels the task. -/
theorem Calm.cancel (hi : net.pos i = net.log.length) :
    Calm t₀ (net.commit i (cancel (net.copy i)).1 (cancel (net.copy i)).2) ∧
      Zero (atEnd t₀ (net.commit i (cancel (net.copy i)).1 (cancel (net.copy i)).2)) := by
  obtain ⟨t, u, ht, hu, hrun, hagain⟩ := h.copy i
  rw [hi, take_length] at hu
  rw [ht, Cancel.cancel]
  have hend : ∀ c es, atEnd t₀ (net.commit i c es) = es.foldl Cancel.replay (some u) :=
    fun c es => ofLog_commit.trans (by rw [hu])
  split_ifs with h0
  · refine ⟨h.commit hi (.inl rfl) fun r hr hsome => ?_, ?_⟩
    · rw [ht] at hr
      exact ⟨hr, hsome⟩
    · rw [hend]
      rintro x ⟨⟩
      exact hrun.symm.trans h0
  · have hnot : ¬ Zero (atEnd t₀ net) := fun hz => h0 (hrun.trans (hz u hu))
    refine ⟨h.commit hi (.inr hnot) fun r hr hsome => ?_, ?_⟩
    · rw [ht] at hr
      cases hr with
      | some halike => exact ⟨.some ⟨rfl, halike.2⟩, rfl⟩
    · rw [hend]
      rintro x ⟨⟩
      rfl

theorem Calm.setRunning (i : ν) : Calm t₀ (setRunning net i) := by
  refine h.touch fun t ht => ?_
  rw [ht]
  exact ⟨_, rfl, rfl, rfl⟩

end

/-- The run was not executed, and its change for the end is to come. -/
def Ending (t₀ : Vtask) (net : Net ν (Option Vtask) Emit) (i : ν) : Prop :=
  Zero (ofLog replay (some t₀) (net.log.take (net.pos i))) ∧
    ∃ t, net.copy i = some t ∧ t.verr = some 0

theorem Ending.commit {j : ν} (h : Ending t₀ net i) (hc : Calm t₀ net)
    (hj : net.pos j = net.log.length) :
    Ending t₀ (net.commit j (cancel (net.copy j)).1 (cancel (net.copy j)).2) i := by
  obtain ⟨hz, t, ht, hverr⟩ := h
  -- the task has no time any more, so there is nothing to cancel
  obtain ⟨t', u, ht', hu, hrun, -⟩ := hc.copy j
  have hend := hc.zero_atEnd hz
  rw [hj, take_length] at hu
  have h0 : t'.runAt = 0 := hrun.trans (hend u hu)
  rw [ht', Cancel.cancel, if_pos h0]
  rcases eq_or_ne i j with rfl | hne
  · refine ⟨?_, t', by simp [Net.commit], ?_⟩
    · simp only [Net.commit, Function.update_self]
      rw [take_of_length_le (by simp [hj]), ofLog, foldl_append]
      exact hend
    · rw [ht] at ht'
      rw [← Option.some.inj ht']
      exact hverr
  · refine ⟨?_, t, by simp [Net.commit, hne, ht], hverr⟩
    simp only [Net.commit, Function.update_of_ne hne]
    rw [take_append_of_le_length (hc.sync.pos_le i)]
    exact hz

theorem Ending.replay (h : Ending t₀ net i) (hc : Calm t₀ net) (j : ν) :
    Ending t₀ (net.replay replay j) i := by
  obtain ⟨hz, t, ht, hverr⟩ := h
  unfold Net.replay
  split
  · exact ⟨hz, t, ht, hverr⟩
  · next es hes =>
    rcases eq_or_ne i j with rfl | hne
    · have hmem : es ∈ net.log.drop (net.pos i) := by
        apply mem_of_getElem? (i := 0)
        rw [getElem?_drop, Nat.add_zero]
        exact hes
      obtain rfl := hc.empty _ hz es hmem
      refine ⟨?_, t, by simp [ht], hverr⟩
      simp only [Function.update_self]
      rw [ofLog_take_succ hes]
      exact hz
    · exact ⟨by simpa [hne] using hz, t, by simp [hne, ht], hverr⟩

/-- The task is deleted by the last change. -/
structure Gone (t₀ : Vtask) (net : Net ν (Option Vtask) Emit) : Prop where
  sync : InSync replay (Option.Rel Alike) (fun _ => True) (some t₀) net
  deleted : atEnd t₀ net = none

theorem Gone.replay (h : Gone t₀ net) (i : ν) : Gone t₀ (net.replay replay i) := by
  refine ⟨h.sync.replay alike_replay i, ?_⟩
  rw [atEnd, Net.log_replay]
  exact h.deleted

omit [DecidableEq ν] in
theorem Gone.copy (h : Gone t₀ net) (hi : net.pos i = net.log.length) : net.copy i = none := by
  have hfollows := h.sync.follows i
  rw [hi, take_length] at hfollows
  have hnone := h.deleted
  rw [atEnd] at hnone
  rw [hnone] at hfollows
  generalize net.copy i = c at hfollows
  cases hfollows
  rfl

theorem Gone.cancel (h : Gone t₀ net) (hi : net.pos i = net.log.length) :
    Gone t₀ (net.commit i (cancel (net.copy i)).1 (cancel (net.copy i)).2) := by
  have hc := h.copy hi
  rw [hc]
  refine ⟨h.sync.commit hi fun r hr _ => ⟨?_, trivial⟩, ?_⟩
  · rw [hc] at hr
    exact hr
  · exact ofLog_commit.trans h.deleted

theorem Ending.gone (h : Ending t₀ net i) (hc : Calm t₀ net) (hi : net.pos i = net.log.length) :
    ∃ t, net.copy i = some t ∧ t.verr = some 0 ∧ taskFinish t 0 false = (none, [.del]) ∧
      Gone t₀ (net.commit i none [.del]) := by
  obtain ⟨hz, t, ht, hverr⟩ := h
  obtain ⟨t', u, ht', hu, hrun, hagain⟩ := hc.copy i
  obtain rfl : t = t' := Option.some.inj (ht.symm.trans ht')
  refine ⟨t, ht, hverr, ?_, ?_, ?_⟩
  · simp [taskFinish, hagain]
  · have hsync : InSync Cancel.replay (Option.Rel Alike) (fun _ => True) (some t₀) net :=
      ⟨hc.sync.pos_le, hc.sync.follows, fun _ => trivial⟩
    exact hsync.commit hi fun r _ _ => ⟨.none, trivial⟩
  · exact ofLog_commit

end Calm

section Inv

variable {ν : Type} [DecidableEq ν] {t₀ : Vtask} {net : Net ν (Option Vtask) Emit} {s : State ν}
  {r : Run ν}

/-- What holds of the run. Nothing is said of the task if the closure was executed. -/
inductive Inv (t₀ : Vtask) : State ν → Prop where
  | idle (net : Net ν (Option Vtask) Emit) (calm : Calm t₀ net) : Inv t₀ ⟨net, none⟩
  | pending (net : Net ν (Option Vtask) Emit) (r : Run ν)
      (stage : r.stage = .forwarded ∨ r.stage = .waiting) (flag : r.taskChanges = false)
      (skipped : r.executed = false) (calm : Calm t₀ net)
      (zero : r.cancelled = true → Zero (atEnd t₀ net)) : Inv t₀ ⟨net, some r⟩
  | finishing (net : Net ν (Option Vtask) Emit) (r : Run ν) (stage : r.stage = .finishing)
      (skipped : r.executed = false) (calm : Calm t₀ net) (ending : Ending t₀ net r.node) :
      Inv t₀ ⟨net, some r⟩
  | done (net : Net ν (Option Vtask) Emit) (r : Run ν) (stage : r.stage = .done)
      (skipped : r.executed = false) (gone : Gone t₀ net) : Inv t₀ ⟨net, some r⟩
  | executed (net : Net ν (Option Vtask) Emit) (r : Run ν)
      (stage : r.stage ≠ .forwarded ∧ r.stage ≠ .waiting) (executed : r.executed = true)
      (seen : r.wse = true → r.cancelled = false) : Inv t₀ ⟨net, some r⟩

omit [DecidableEq ν] in
theorem noteCancel_of_late (h : r.stage ≠ .forwarded ∧ r.stage ≠ .waiting) : r.noteCancel = r := by
  simp [Run.noteCancel, h.1, h.2]

theorem inv_cancel (h : Inv t₀ s) (i : ν) : Inv t₀ (s.cancel i) := by
  unfold State.cancel
  split_ifs with hi
  · cases h with
    | idle net calm => exact .idle _ (calm.cancel hi).1
    | pending net r stage flag skipped calm zero =>
      have hnote : r.noteCancel = { r with cancelled := true } := if_pos stage
      simp only [Option.map_some, hnote]
      exact .pending _ _ stage flag skipped (calm.cancel hi).1 fun _ => (calm.cancel hi).2
    | finishing net r stage skipped calm ending =>
      simp only [Option.map_some, noteCancel_of_late (r := r) (by simp [stage])]
      exact .finishing _ _ stage skipped (calm.cancel hi).1 (ending.commit calm hi)
    | done net r stage skipped gone =>
      simp only [Option.map_some, noteCancel_of_late (r := r) (by simp [stage])]
      exact .done _ _ stage skipped (gone.cancel hi)
    | executed net r stage executed seen =>
      simp only [Option.map_some, noteCancel_of_late stage]
      exact .executed _ _ stage executed seen
  · exact h

theorem inv_replay (h : Inv t₀ s) (i : ν) : Inv t₀ { s with net := s.net.replay replay i } := by
  cases h with
  | idle net calm => exact .idle _ (calm.replay i)
  | pending net r stage flag skipped calm zero =>
    refine .pending _ _ stage flag skipped (calm.replay i) fun hc => ?_
    rw [atEnd, Net.log_replay]
    exact zero hc
  | finishing net r stage skipped calm ending =>
    exact .finishing _ _ stage skipped (calm.replay i) (ending.replay calm i)
  | done net r stage skipped gone => exact .done _ _ stage skipped (gone.replay i)
  | executed net r stage executed seen => exact .executed _ _ stage executed seen

theorem inv_initiate (h : Inv t₀ s) (i target : ν) (wse : Bool) :
    Inv t₀ (s.initiate i target wse) := by
  unfold State.initiate
  split
  · next t hrun hcopy =>
    by_cases hdue : t.runAt ≠ 0 ∧ t.running = false
    · rw [if_pos hdue]
      cases h with
      | idle net calm =>
        refine .pending _ _ ?_ rfl rfl (calm.setRunning i) nofun
        by_cases htarget : i = target
        · exact .inr (if_pos htarget)
        · exact .inl (if_neg htarget)
      | _ => cases hrun
    · rw [if_neg hdue]
      exact h
  · exact h

theorem inv_receive (h : Inv t₀ ⟨net, some r⟩) : Inv t₀ (State.receive ⟨net, some r⟩ r) := by
  unfold State.receive
  split_ifs with hstage
  · cases h with
    | pending _ _ stage flag skipped calm zero =>
      exact .pending _ _ (.inr rfl) flag skipped (calm.setRunning r.node) zero
    | finishing _ _ stage => cases hstage.symm.trans stage
    | done _ _ stage => cases hstage.symm.trans stage
    | executed _ _ stage => exact absurd hstage stage.1
  · exact h

theorem inv_queryDone (hexec : r.executed) (hseen : r.wse → r.cancelled = false)
    (err : ℤ) (futures : Bool) : Inv t₀ (s.queryDone r err futures) := by
  unfold State.queryDone State.taskResult
  split_ifs <;> exact .executed _ _ (by simp) hexec hseen

theorem inv_execute (hseen : r.wse → r.cancelled = false) (t : Vtask) (body : Body) :
    Inv t₀ (s.execute r t body) := by
  unfold State.execute
  dsimp only
  split_ifs
  · exact inv_queryDone (r := { r with executed := true }) rfl hseen _ _
  · exact inv_queryDone (r := { r with executed := true, taskChanges := true }) rfl hseen _ _
  · exact inv_queryDone (r := { r with executed := true }) rfl hseen _ _

theorem inv_skip {t : Vtask} (calm : Calm t₀ net) (flag : r.taskChanges = false)
    (skipped : r.executed = false) (ht : net.copy r.node = some t) (h0 : t.runAt = 0) :
    Inv t₀ (State.queryDone ⟨net.touch r.node (some { t with taskChanges := true }), some r⟩ r 0
      false) := by
  have htouch : Calm t₀ (net.touch r.node (some { t with taskChanges := true })) := by
    refine calm.touch fun t' ht' => ⟨_, rfl, ?_⟩
    obtain rfl := Option.some.inj (ht.symm.trans ht')
    exact ⟨rfl, rfl⟩
  rw [State.queryDone, if_neg (by simp), State.taskResult, if_neg (by simp [flag])]
  refine .finishing _ _ rfl skipped (htouch.touch fun t' ht' => ?_) ⟨?_, ?_⟩
  · rw [ht']
    exact ⟨_, rfl, rfl, rfl⟩
  · obtain ⟨t', u, ht', hu, hrun, -⟩ := calm.copy r.node
    obtain rfl := Option.some.inj (ht.symm.trans ht')
    intro x hx
    obtain rfl := Option.some.inj (hu.symm.trans hx)
    exact hrun.symm.trans h0
  · simp [Net.touch]

section

variable (h : Inv t₀ ⟨net, some r⟩)

include h

theorem inv_start (body : Body) : Inv t₀ (State.start ⟨net, some r⟩ r body) := by
  unfold State.start
  split_ifs with hstart
  · cases h with
    | finishing _ _ stage => cases hstart.1.symm.trans stage
    | done _ _ stage => cases hstart.1.symm.trans stage
    | executed _ _ stage => exact absurd hstart.1 stage.2
    | pending _ _ stage flag skipped calm zero =>
      obtain ⟨t, u, ht, hu, hrun, hagain⟩ := calm.copy r.node
      unfold State.runTask
      simp only [ht]
      split_ifs with h0
      · exact inv_skip calm flag skipped ht h0
      · apply inv_execute
        intro hwse
        by_contra hcancelled
        have hpos := hstart.2 hwse
        simp only at hpos
        rw [hpos, take_length] at hu
        exact h0 (hrun.trans (zero (by simpa using hcancelled) u hu))
  · exact h

theorem inv_futures (err : ℤ) (hstage : r.stage = .futures) :
    Inv t₀ (State.taskResult ⟨net, some r⟩ r err) := by
  cases h with
  | pending _ _ stage => rcases stage with hs | hs <;> cases hstage.symm.trans hs
  | finishing _ _ stage => cases hstage.symm.trans stage
  | done _ _ stage => cases hstage.symm.trans stage
  | executed _ _ stage executed seen =>
    unfold State.taskResult
    split_ifs <;> exact .executed _ _ (by simp) executed seen

theorem inv_finish : Inv t₀ (State.finish ⟨net, some r⟩ r) := by
  unfold State.finish
  split_ifs with hfinish
  · cases h with
    | pending _ _ stage => rcases stage with hs | hs <;> cases hfinish.1.symm.trans hs
    | done _ _ stage => cases hfinish.1.symm.trans stage
    | executed _ _ stage executed seen =>
      dsimp only
      split
      · exact .executed _ _ (by simp) executed seen
      · exact .executed _ _ (by simp) executed seen
    | finishing _ _ stage skipped calm ending =>
      obtain ⟨t, ht, hverr, hdel, hgone⟩ := ending.gone calm hfinish.2
      simp only [ht, hverr, Option.getD_some, hdel]
      exact .done _ _ rfl skipped hgone
  · exact h

end

theorem inv_step (h : Inv t₀ s) (op : Op ν) : Inv t₀ (step s op) := by
  obtain ⟨net, run⟩ := s
  cases op with
  | cancel i => exact inv_cancel h i
  | replay i => exact inv_replay h i
  | initiate i target wse => exact inv_initiate h i target wse
  | receive =>
    cases run with
    | none => exact h
    | some r => exact inv_receive h
  | start body =>
    cases run with
    | none => exact h
    | some r => exact inv_start h body
  | futures err =>
    cases run with
    | none => exact h
    | some r =>
      simp only [step, Option.elim_some]
      split_ifs with hstage
      · exact inv_futures h err hstage
      · exact h
  | finish =>
    cases run with
    | none => exact h
    | some r => exact inv_finish h

def idle (runAt : ℕ) (verr : Option ℤ) : State ν :=
  ⟨⟨[], fun _ => 0, fun _ => some ⟨runAt, verr, false, false, false⟩⟩, none⟩

theorem inv_run (runAt : ℕ) (verr : Option ℤ) (ops : List (Op ν)) :
    Inv ⟨runAt, verr, false, false, false⟩ (ops.foldl step (idle runAt verr)) := by
  have hidle : Inv ⟨runAt, verr, false, false, false⟩ (idle runAt verr : State ν) := by
    refine .idle _ ⟨inSync_start (.some ⟨rfl, rfl⟩) rfl, ?_⟩
    intro k _ es hes
    simp at hes
  generalize (idle runAt verr : State ν) = s at hidle
  induction ops generalizing s with
  | nil => exact hidle
  | cons op ops ih => exact ih _ (inv_step hidle op)

/-- The status of the task after a run for which `cancel` was called before the start: the closure
is not executed, and the task is cancelled on every node. -/
def Kept (s : State ν) (r : Run ν) : Prop :=
  r.executed = false ∧
    ∀ i, ∃ t, s.net.copy i = some t ∧ t.runAt = 0 ∧ t.verr = some exCancelled

/-- After all steps of a run, the task is kept as cancelled exactly if it was not cancelled between
the initiation and the start: a run which is not executed deletes the task on every node. -/
theorem cancelled_kept_iff (runAt : ℕ) (verr : Option ℤ) (ops : List (Op ν)) {r : Run ν}
    (hrun : (ops.foldl step (idle runAt verr)).run = some r) (hdone : r.stage = .done)
    (hall : ∀ i, (ops.foldl step (idle runAt verr)).net.pos i =
      (ops.foldl step (idle runAt verr)).net.log.length) :
    ((r.cancelled = true → Kept (ops.foldl step (idle runAt verr)) r) ↔ r.cancelled = false) ∧
      (r.cancelled = true → r.wse = true → r.executed = false) ∧
      (r.executed = false → ∀ i, (ops.foldl step (idle runAt verr)).net.copy i = none) := by
  have hinv := inv_run runAt verr ops
  generalize ops.foldl step (idle runAt verr) = s at hrun hall hinv
  cases hinv with
  | idle => cases hrun
  | pending net r' stage =>
    obtain rfl := Option.some.inj hrun
    rcases stage with hs | hs <;> cases hdone.symm.trans hs
  | finishing net r' stage =>
    obtain rfl := Option.some.inj hrun
    cases hdone.symm.trans stage
  | done net r' stage skipped gone =>
    obtain rfl := Option.some.inj hrun
    have hnone : ∀ i, net.copy i = none := fun i => gone.copy (hall i)
    refine ⟨⟨fun hkept => ?_, fun hno hyes => ?_⟩, fun _ _ => skipped, fun _ => hnone⟩
    · by_contra hcancelled
      obtain ⟨t, ht, -⟩ := (hkept (by simpa using hcancelled)).2 r'.node
      rw [hnone] at ht
      cases ht
    · rw [hno] at hyes
      cases hyes
  | executed net r' stage executed seen =>
    obtain rfl := Option.some.inj hrun
    refine ⟨⟨fun hkept => ?_, fun hno hyes => ?_⟩, fun hyes hwse => ?_, fun hno => ?_⟩
    · by_contra hcancelled
      have hskipped := (hkept (by simpa using hcancelled)).1
      rw [executed] at hskipped
      cases hskipped
    · rw [hno] at hyes
      cases hyes
    · rw [seen hwse] at hyes
      cases hyes
    · rw [executed] at hno
      cases hno

end Inv

/-- Two nodes: the task is initiated on the first, cancelled on the second, and the run starts after
the first node has seen this. -/
def cancelOps (wse : Bool) : List (Op Bool) :=
  [.initiate false false wse, .cancel true, .replay false, .start ⟨[], 0, false⟩, .finish,
    .replay true]

/-- The task is deleted on both nodes. -/
theorem cancelled_task_deleted : ∃ r : Run Bool,
    ((cancelOps false).foldl step (idle 1 none)).run = some r ∧ r.stage = .done ∧
      r.cancelled = true ∧ r.executed = false ∧
      (∀ i, ((cancelOps false).foldl step (idle 1 none)).net.copy i = none) ∧
      ¬ (r.cancelled = true → Kept ((cancelOps false).foldl step (idle 1 none)) r) := by
  refine ⟨_, rfl, rfl, rfl, rfl, ?_, ?_⟩
  · intro i
    cases i <;> rfl
  · intro h
    obtain ⟨t, ht, -⟩ := (h rfl).2 true
    cases ht

/-- The run sets another time, and the task is cancelled after the run. -/
def lateOps : List (Op Bool) :=
  [.initiate false true true, .receive, .start ⟨[.again 5], 0, false⟩, .replay false,
    .cancel false, .replay true]

/-- Without a call of `cancel` before the start there is nothing to keep. With one the closure is
not executed. -/
theorem run_kept_without_cancel :
    (∃ r, (lateOps.foldl step (idle 1 none)).run = some r ∧ r.executed = true ∧
      (r.cancelled = true → Kept (lateOps.foldl step (idle 1 none)) r)) ∧
    ∃ r, ((cancelOps true).foldl step (idle 1 none)).run = some r ∧ r.cancelled = true ∧
      r.executed = false := by
  refine ⟨⟨_, rfl, rfl, (cancelled_kept_iff 1 none lateOps rfl rfl ?_).1.mpr rfl⟩,
    _, rfl, rfl, (cancelled_kept_iff 1 none (cancelOps true) rfl rfl ?_).2.1 rfl rfl⟩
  · intro i
    cases i <;> rfl
  · intro i
    cases i <;> rfl

end ThingsDB.Tasks.Cancel
