import ThingsDB.Lib.Rank
import ThingsDB.Lib.Transition
import ThingsDB.Util.Vec

/-!
# The task timer

The tasks of a node with `tasks__cb`, which starts the tasks of this node when they are due, and
the functions which change when a task runs or which node runs it. The timer depends on one
value, the lowest time at which a task of this node runs.
-/

namespace ThingsDB.Tasks

open Util Transition List

/-- A task, with its flags `TI_VTASK_FLAG_RUNNING` and `TI_VTASK_FLAG_AGAIN`. -/
structure Vtask where
  id : ℕ
  runAt : UInt64
  running : Bool
  again : Bool
  deriving DecidableEq, Repr

/-- What the timer of a node reads: the ids of all nodes with the relative id of this node, the
lowest time, and the tasks of the scope `@thingsdb` followed by those of each collection. -/
structure Node where
  self : ℕ
  nodes : List ℕ
  relId : ℕ
  lowest : UInt64
  scopes : List (List Vtask)
  deriving DecidableEq, Repr

/-- `ti_update_rel_id` -/
def relIdOf (nodes : List ℕ) (self : ℕ) : ℕ := Rank.rank nodes self

def lower (lowest runAt : UInt64) : UInt64 := if runAt < lowest then runAt else lowest

namespace Node

variable (s : Node)

def tasks : List Vtask := s.scopes.flatten

def mine (id : ℕ) : Bool := id % s.nodes.length = s.relId

def waits (t : Vtask) : Bool := t.runAt ≠ 0 && s.mine t.id && !t.running

/-- `tasks__handle_vtask`, where `started` tells if `ti_vtask_run` succeeds. The third value are
the tasks for which it is called. -/
def handleVtask (now : UInt64) (started : Vtask → Bool) (lowest : UInt64) (t : Vtask) :
    UInt64 × Vtask × List Vtask :=
  if s.waits t then
    if t.runAt ≤ now then
      if started t then (lowest, { t with running := true }, [t])
      else (lower lowest t.runAt, t, [t])
    else (lower lowest t.runAt, t, [])
  else (lowest, t, [])

def handleVtasks (now : UInt64) (started : Vtask → Bool) :
    UInt64 → List Vtask → UInt64 × List Vtask × List Vtask
  | lowest, [] => (lowest, [], [])
  | lowest, t :: ts =>
    let one := s.handleVtask now started lowest t
    let rest := handleVtasks now started one.1 ts
    (rest.1, one.2.1 :: rest.2.1, one.2.2 ++ rest.2.2)

def handleScopes (now : UInt64) (started : Vtask → Bool) :
    UInt64 → List (List Vtask) → UInt64 × List (List Vtask) × List Vtask
  | lowest, [] => (lowest, [], [])
  | lowest, ts :: scopes =>
    let one := s.handleVtasks now started lowest ts
    let rest := handleScopes now started one.1 scopes
    (rest.1, one.2.1 :: rest.2.1, one.2.2 ++ rest.2.2)

/-- `tasks__cb`, where `busy` are the tests on the status of the node and on a restore. -/
def timer (now : UInt64) (busy : Bool) (started : Vtask → Bool) : Node × List Vtask :=
  if now < s.lowest ∨ busy then (s, [])
  else
    let r := s.handleScopes now started (-1) s.scopes
    ({ s with lowest := r.1, scopes := r.2.1 }, r.2.2)

/-- `ti_tasks_append`, for a new task and for one which is loaded. -/
def append (scope id : ℕ) (runAt : UInt64) : Node :=
  { s with
    scopes := s.scopes.modify scope fun ts => ts ++ [⟨id, runAt, false, false⟩]
    lowest := if s.mine id then lower s.lowest runAt else s.lowest }

def idx (id : ℕ) (ts : List Vtask) : ℕ := ts.findIdx fun t => t.id = id

def modify (scope id : ℕ) (f : Vtask → Vtask) : Node :=
  { s with scopes := s.scopes.modify scope fun ts => ts.modify (idx id ts) f }

def del (scope id : ℕ) : Node :=
  { s with scopes := s.scopes.modify scope fun ts =>
      if idx id ts < ts.length then vecSwapRemove ts (idx id ts) else ts }

def byId (scope id : ℕ) : Option Vtask :=
  (s.scopes[scope]?).bind fun ts => ts.find? fun t => t.id = id

/-- `ti_tasks_vtask_finish` with the time at which the task runs again. -/
def vtaskFinish (scope id : ℕ) (runAt : UInt64) : Node :=
  { s.modify scope id (fun t => { t with runAt := runAt, running := false, again := false }) with
    lowest := if runAt ≠ 0 && s.mine id then lower s.lowest runAt else s.lowest }

/-- `query__task_finish`, where `err` tells if the task has failed. -/
def taskFinish (scope : ℕ) (t : Vtask) (err : Bool) : Node :=
  let runAt := if t.again then t.runAt else 0
  if runAt = 0 ∧ !err then s.del scope t.id else s.vtaskFinish scope t.id runAt

def newNode (id : ℕ) : Node :=
  { s with nodes := s.nodes ++ [id], relId := relIdOf (s.nodes ++ [id]) s.self, lowest := 0 }

def without (id : ℕ) : List ℕ :=
  if s.nodes.idxOf id < s.nodes.length then vecSwapRemove s.nodes (s.nodes.idxOf id) else s.nodes

def delNode (id : ℕ) : Node :=
  { s with nodes := s.without id, relId := relIdOf (s.without id) s.self }

end Node

inductive Op where
  | timer (now : UInt64) (busy : Bool) (started : Vtask → Bool)
  | append (scope id : ℕ) (runAt : UInt64)
  /-- A task which another node has forwarded is started by `ti_vtask_run`. -/
  | run (scope id : ℕ)
  /-- `ti_vtask_again_at`, in the context of a task which runs. -/
  | againAt (scope id : ℕ) (runAt : UInt64)
  | taskFinish (scope id : ℕ) (err : Bool)
  /-- `ctask__vtask_finish` and `ttask__vtask_finish`, for a task which has finished on
  another node. -/
  | vtaskFinish (scope id : ℕ) (runAt : UInt64)
  | cancel (scope id : ℕ)
  | del (scope id : ℕ)
  | newCollection
  | dropCollection (scope : ℕ)
  | newNode (id : ℕ)
  | delNode (id : ℕ)

/-- One step of a node, which fails when there is no such task, for a task which does not run,
and for the node itself. -/
def step (s : Node) : Op → Option Node
  | .timer now busy started => some (s.timer now busy started).1
  | .append scope id runAt => some (s.append scope id runAt)
  | .run scope id => some (s.modify scope id fun t => { t with running := true })
  | .againAt scope id runAt =>
    match s.byId scope id with
    | some t =>
      if t.running then
        some (s.modify scope id fun t => { t with runAt := runAt, again := true })
      else none
    | none => none
  | .taskFinish scope id err => (s.byId scope id).map fun t => s.taskFinish scope t err
  | .vtaskFinish scope id runAt => (s.byId scope id).map fun _ => s.vtaskFinish scope id runAt
  | .cancel scope id => some (s.modify scope id fun t => { t with runAt := 0 })
  | .del scope id => some (s.del scope id)
  | .newCollection => some { s with scopes := s.scopes ++ [[]] }
  | .dropCollection scope => some { s with scopes := s.scopes.eraseIdx scope }
  | .newNode id => some (s.newNode id)
  | .delNode id => if id = s.self then none else some (s.delNode id)

def start (self : ℕ) (nodes : List ℕ) : Node := ⟨self, nodes, relIdOf nodes self, 0, [[]]⟩

def Node.Covered (s : Node) : Prop := ∀ t ∈ s.tasks, s.waits t = true → s.lowest ≤ t.runAt

/-- No node is deleted while a task which is then left to this node is below the lowest time. -/
def Meets (s : Node) : Op → Prop
  | .delNode id => ∀ t ∈ s.tasks, (s.delNode id).waits t = true → s.lowest ≤ t.runAt
  | _ => True

instance (s : Node) (op : Op) : Decidable (Meets s op) := by
  cases op <;> unfold Meets <;> infer_instance

theorem lower_le_left (lowest runAt : UInt64) : lower lowest runAt ≤ lowest := by
  unfold lower
  split_ifs with h
  · exact UInt64.le_of_lt h
  · exact UInt64.le_refl _

theorem lower_le_right (lowest runAt : UInt64) : lower lowest runAt ≤ runAt := by
  unfold lower
  split_ifs with h
  · exact UInt64.le_refl _
  · exact UInt64.not_lt.mp h

namespace Node

variable {s : Node} {now lowest : UInt64} {started : Vtask → Bool} {t : Vtask} {scope id : ℕ}

section Loop

/-- What a pass over tasks does: the lowest time gets lower, it is not above any task which waits
afterwards, and the tasks which are due are started. -/
structure Handled (s : Node) (now lowest : UInt64) (ts ts' : List Vtask) (low : UInt64)
    (due : List Vtask) : Prop where
  le : low ≤ lowest
  covered : ∀ t ∈ ts', s.waits t = true → low ≤ t.runAt
  started : ∀ t ∈ ts, s.waits t = true → t.runAt ≤ now → t ∈ due

theorem Handled.append {ts ts' us us' due due' : List Vtask} {low low' : UInt64}
    (h : Handled s now lowest ts ts' low due) (h' : Handled s now low us us' low' due') :
    Handled s now lowest (ts ++ us) (ts' ++ us') low' (due ++ due') := by
  refine ⟨UInt64.le_trans h'.le h.le, fun t ht hw => ?_, fun t ht hw hle => ?_⟩
  · rcases mem_append.mp ht with ht | ht
    · exact UInt64.le_trans h'.le (h.covered t ht hw)
    · exact h'.covered t ht hw
  · rcases mem_append.mp ht with ht | ht
    · exact mem_append_left _ (h.started t ht hw hle)
    · exact mem_append_right _ (h'.started t ht hw hle)

variable (s now lowest started)

theorem handled_vtask (t : Vtask) : Handled s now lowest [t]
    [(s.handleVtask now started lowest t).2.1] (s.handleVtask now started lowest t).1
      (s.handleVtask now started lowest t).2.2 := by
  unfold handleVtask
  split_ifs with hw hnow hstart
  · exact ⟨UInt64.le_refl _, by simp [waits], by simp⟩
  · exact ⟨lower_le_left _ _, by simp [lower_le_right], by simp⟩
  · exact ⟨lower_le_left _ _, by simp [lower_le_right],
      by simpa using fun _ => UInt64.not_le.mp hnow⟩
  · exact ⟨UInt64.le_refl _, by simp [hw], by simp [hw]⟩

theorem handled_vtasks (ts : List Vtask) :
    Handled s now lowest ts (s.handleVtasks now started lowest ts).2.1
      (s.handleVtasks now started lowest ts).1 (s.handleVtasks now started lowest ts).2.2 := by
  induction ts generalizing lowest with
  | nil => exact ⟨UInt64.le_refl _, by simp [handleVtasks], by simp⟩
  | cons t ts ih => exact (s.handled_vtask now lowest started t).append (ih _)

theorem handled_scopes (scopes : List (List Vtask)) :
    Handled s now lowest scopes.flatten (s.handleScopes now started lowest scopes).2.1.flatten
      (s.handleScopes now started lowest scopes).1
      (s.handleScopes now started lowest scopes).2.2 := by
  induction scopes generalizing lowest with
  | nil => exact ⟨UInt64.le_refl _, by simp [handleScopes], by simp⟩
  | cons ts scopes ih => exact (s.handled_vtasks now lowest started ts).append (ih _)

variable {s now lowest started}

theorem covered_timer (h : s.Covered) (busy : Bool) : (s.timer now busy started).1.Covered := by
  unfold timer
  split_ifs with hskip
  · exact h
  · exact (s.handled_scopes now (-1) started s.scopes).covered

theorem mem_timer (h : s.Covered) (ht : t ∈ s.tasks) (hw : s.waits t) (hle : t.runAt ≤ now) :
    t ∈ (s.timer now false started).2 := by
  have hlow : ¬ (now < s.lowest ∨ false = true) := by
    rintro (hlt | hfalse)
    · exact UInt64.not_lt.mpr (UInt64.le_trans (h t ht hw) hle) hlt
    · cases hfalse
  unfold timer
  rw [if_neg hlow]
  exact (s.handled_scopes now (-1) started s.scopes).started t ht hw hle

end Loop

section Change

theorem mem_flatten_modify {scopes : List (List Vtask)} {f : List Vtask → List Vtask}
    (h : t ∈ (scopes.modify scope f).flatten) :
    t ∈ scopes.flatten ∨ ∃ ts, scopes[scope]? = some ts ∧ t ∈ f ts := by
  obtain ⟨ts', hts', ht⟩ := mem_flatten.mp h
  obtain ⟨i, hi⟩ := mem_iff_getElem?.mp hts'
  rw [getElem?_modify] at hi
  obtain ⟨ts, hts, heq⟩ := Option.map_eq_some_iff.mp hi
  split_ifs at heq with hscope
  · subst hscope heq
    exact .inr ⟨ts, hts, ht⟩
  · subst heq
    exact .inl (mem_flatten.mpr ⟨ts, mem_of_getElem? hts, ht⟩)

theorem mem_tasks_modify {f : Vtask → Vtask} (h : t ∈ (s.modify scope id f).tasks) :
    t ∈ s.tasks ∨ ∃ u, s.byId scope id = some u ∧ t = f u := by
  rcases mem_flatten_modify h with h | ⟨ts, hts, h⟩
  · exact .inl h
  · obtain ⟨i, hi⟩ := mem_iff_getElem?.mp h
    rw [getElem?_modify] at hi
    obtain ⟨u, hu, heq⟩ := Option.map_eq_some_iff.mp hi
    split_ifs at heq with hidx
    · right
      refine ⟨u, ?_, heq.symm⟩
      rw [byId, hts, Option.bind_some, ← hu, ← hidx]
      exact find?_eq_getElem?_findIdx
    · subst heq
      exact .inl (mem_flatten.mpr ⟨ts, mem_of_getElem? hts, mem_of_getElem? hu⟩)

theorem byId_id (h : s.byId scope id = some t) : t.id = id := by
  obtain ⟨ts, -, hfind⟩ := Option.bind_eq_some_iff.mp h
  simpa using find?_some hfind

section

variable (h : s.Covered)

include h

theorem Covered.of_le {s' : Node} (hnodes : s'.nodes = s.nodes) (hrel : s'.relId = s.relId)
    (hlow : s'.lowest ≤ s.lowest)
    (ht : ∀ t ∈ s'.tasks, s'.waits t → t ∈ s.tasks ∨ s'.lowest ≤ t.runAt) : s'.Covered := by
  intro t htask hw
  rcases ht t htask hw with hold | hle
  · have hwaits : s.waits t = true := by
      rw [← hw, waits, waits, mine, mine, hnodes, hrel]
    exact UInt64.le_trans hlow (h t hold hwaits)
  · exact hle

theorem covered_modify {f : Vtask → Vtask}
    (hf : ∀ u, s.byId scope id = some u → s.waits (f u) = false) :
    (s.modify scope id f).Covered := by
  refine h.of_le rfl rfl (UInt64.le_refl _) ?_
  intro t ht hw
  rcases mem_tasks_modify ht with ht | ⟨u, hu, rfl⟩
  · exact .inl ht
  · have hfalse : s.waits (f u) = true := hw
    simp [hf u hu] at hfalse

theorem covered_append (runAt : UInt64) : (s.append scope id runAt).Covered := by
  refine h.of_le rfl rfl ?_ ?_
  · unfold append
    dsimp only
    split_ifs
    · exact lower_le_left _ _
    · exact UInt64.le_refl _
  · intro t ht hw
    rcases mem_flatten_modify ht with ht | ⟨ts, hts, ht⟩
    · exact .inl ht
    · rcases mem_append.mp ht with ht | ht
      · exact .inl (mem_flatten.mpr ⟨ts, mem_of_getElem? hts, ht⟩)
      · obtain rfl := mem_singleton.mp ht
        have hmine : s.mine id = true := by
          simp only [waits, Bool.and_eq_true] at hw
          exact hw.1.2
        right
        simp only [append, hmine, if_true]
        exact lower_le_right _ _

theorem covered_vtaskFinish (runAt : UInt64) : (s.vtaskFinish scope id runAt).Covered := by
  refine h.of_le rfl rfl ?_ ?_
  · unfold vtaskFinish
    dsimp only
    split_ifs
    · exact lower_le_left _ _
    · exact UInt64.le_refl _
  · intro t ht hw
    rcases mem_tasks_modify ht with ht | ⟨u, hu, rfl⟩
    · exact .inl ht
    · have hset : (decide (runAt ≠ 0) && s.mine id) = true := by
        simp only [waits, Bool.and_eq_true] at hw
        rw [Bool.and_eq_true, ← byId_id hu]
        exact hw.1
      right
      simp only [vtaskFinish, hset, if_true]
      exact lower_le_right _ _

theorem covered_del : (s.del scope id).Covered := by
  refine h.of_le rfl rfl (UInt64.le_refl _) ?_
  intro t ht _
  rcases mem_flatten_modify ht with ht | ⟨ts, hts, ht⟩
  · exact .inl ht
  · left
    refine mem_flatten.mpr ⟨ts, mem_of_getElem? hts, ?_⟩
    split_ifs at ht with hidx
    · exact mem_of_mem_eraseIdx ((vecSwapRemove_perm ts _ hidx).mem_iff.mp ht)
    · exact ht

theorem covered_taskFinish (err : Bool) : (s.taskFinish scope t err).Covered := by
  have hcases : ∀ runAt, (if runAt = 0 ∧ (!err) = true then s.del scope t.id
      else s.vtaskFinish scope t.id runAt).Covered := by
    intro runAt
    split_ifs
    · exact covered_del h
    · exact covered_vtaskFinish h runAt
  exact hcases _

end

end Change

end Node

open Node

variable {s s' : Node} {op : Op}

/-- A step keeps the tasks covered, exactly if it meets the condition. -/
theorem covered_step_iff (h : s.Covered) (hs : step s op = some s') : s'.Covered ↔ Meets s op := by
  cases op with
  | delNode id =>
    simp only [step] at hs
    split_ifs at hs
    obtain rfl := Option.some.inj hs
    exact Iff.rfl
  | timer now busy started =>
    obtain rfl := Option.some.inj hs
    exact iff_of_true (covered_timer h busy) trivial
  | append scope id runAt =>
    obtain rfl := Option.some.inj hs
    exact iff_of_true (covered_append h runAt) trivial
  | run scope id =>
    obtain rfl := Option.some.inj hs
    exact iff_of_true (covered_modify h fun u _ => by simp [waits]) trivial
  | againAt scope id runAt =>
    simp only [step] at hs
    split at hs
    · rename_i t ht
      split_ifs at hs with hrun
      obtain rfl := Option.some.inj hs
      refine iff_of_true (covered_modify h fun u hu => ?_) trivial
      obtain rfl : t = u := Option.some.inj (ht.symm.trans hu)
      simp [waits, hrun]
    · simp at hs
  | taskFinish scope id err =>
    obtain ⟨t, -, rfl⟩ := Option.map_eq_some_iff.mp hs
    exact iff_of_true (covered_taskFinish h err) trivial
  | vtaskFinish scope id runAt =>
    obtain ⟨t, -, rfl⟩ := Option.map_eq_some_iff.mp hs
    exact iff_of_true (covered_vtaskFinish h runAt) trivial
  | cancel scope id =>
    obtain rfl := Option.some.inj hs
    exact iff_of_true (covered_modify h fun u _ => by simp [waits]) trivial
  | del scope id =>
    obtain rfl := Option.some.inj hs
    exact iff_of_true (covered_del h) trivial
  | newCollection =>
    obtain rfl := Option.some.inj hs
    refine iff_of_true (h.of_le rfl rfl (UInt64.le_refl _) fun t ht _ => .inl ?_) trivial
    simpa [tasks] using ht
  | dropCollection scope =>
    obtain rfl := Option.some.inj hs
    refine iff_of_true (h.of_le rfl rfl (UInt64.le_refl _) fun t ht _ => .inl ?_) trivial
    obtain ⟨ts, hts, ht⟩ := mem_flatten.mp ht
    exact mem_flatten.mpr ⟨ts, mem_of_mem_eraseIdx hts, ht⟩
  | newNode id =>
    obtain rfl := Option.some.inj hs
    refine iff_of_true (fun t _ _ => ?_) trivial
    exact UInt64.zero_le

/-- The relative id is the one of this node in its list of nodes. -/
def Node.Ranked (s : Node) : Prop := s.relId = relIdOf s.nodes s.self

theorem ranked_step (h : s.Ranked) (hs : step s op = some s') : s'.Ranked ∧ s'.self = s.self := by
  cases op with
  | delNode id =>
    simp only [step] at hs
    split_ifs at hs
    obtain rfl := Option.some.inj hs
    exact ⟨rfl, rfl⟩
  | newNode id =>
    obtain rfl := Option.some.inj hs
    exact ⟨rfl, rfl⟩
  | timer now busy started =>
    obtain rfl := Option.some.inj hs
    unfold Node.timer
    split_ifs
    · exact ⟨h, rfl⟩
    · exact ⟨h, rfl⟩
  | againAt scope id runAt =>
    simp only [step] at hs
    split at hs
    · split_ifs at hs
      obtain rfl := Option.some.inj hs
      exact ⟨h, rfl⟩
    · simp at hs
  | taskFinish scope id err =>
    obtain ⟨t, -, rfl⟩ := Option.map_eq_some_iff.mp hs
    unfold Node.taskFinish
    dsimp only
    split_ifs <;> exact ⟨h, rfl⟩
  | vtaskFinish scope id runAt =>
    obtain ⟨t, -, rfl⟩ := Option.map_eq_some_iff.mp hs
    exact ⟨h, rfl⟩
  | _ =>
    obtain rfl := Option.some.inj hs
    exact ⟨h, rfl⟩

theorem existsUnique_mine {nodes : List ℕ} (hnodes : nodes.Nodup) (hne : nodes ≠ []) (id : ℕ) :
    ∃! x, x ∈ nodes ∧ id % nodes.length = relIdOf nodes x := by
  have hlt : id % nodes.length < nodes.length := Nat.mod_lt _ (length_pos_iff.mpr hne)
  obtain ⟨x, ⟨hx, hrank⟩, huniq⟩ := Rank.existsUnique_rank hnodes hlt
  exact ⟨x, ⟨hx, hrank.symm⟩, fun y ⟨hy, hyr⟩ => huniq y ⟨hy, hyr.symm⟩⟩

/-- In every run in which no node is deleted while a task which is then left to this node is
below the lowest time, the timer starts every task which is due, and a step which does not meet
the condition breaks it. With the same list of nodes, each task is one of exactly one node. -/
theorem due_tasks_start {self : ℕ} {nodes : List ℕ} {ops : List Op}
    (hmeets : Along step Meets (start self nodes) ops)
    (hrun : run step (start self nodes) ops = some s) :
    s.Covered ∧ (∀ op s', step s op = some s' → (s'.Covered ↔ Meets s op)) ∧
    (∀ now started, ∀ t ∈ s.tasks, s.waits t = true → t.runAt ≤ now →
      t ∈ (s.timer now false started).2) ∧
    s.relId = relIdOf s.nodes self ∧
    (s.nodes.Nodup → s.nodes ≠ [] → ∀ id,
      ∃! x, x ∈ s.nodes ∧ id % s.nodes.length = relIdOf s.nodes x) := by
  have hcov : s.Covered := by
    refine run_invariant_along (fun s op s' h hm hs => (covered_step_iff h hs).mpr hm) ?_
      hmeets hrun
    intro t ht
    simp [start, tasks] at ht
  have hrank : s.Ranked ∧ s.self = self := by
    refine run_invariant (P := fun s => s.Ranked ∧ s.self = self) (fun s op s' h hs => ?_)
      ⟨rfl, rfl⟩ hrun
    obtain ⟨hr, hself⟩ := ranked_step h.1 hs
    exact ⟨hr, hself.trans h.2⟩
  refine ⟨hcov, fun op s' hs => covered_step_iff hcov hs, ?_, ?_,
    fun hn hne => existsUnique_mine hn hne⟩
  · intro now started t ht hw hle
    exact mem_timer hcov ht hw hle
  · rw [← hrank.2]
    exact hrank.1

/-- Node 0 with a task for node 1, which is deleted after the timer of node 0 has run. -/
def overlooked : List Op :=
  [.newNode 1, .append 0 1 100, .timer 50 false (fun _ => true), .delNode 1]

/-- The same with an earlier task for node 0. -/
def covered : List Op := .newNode 1 :: .append 0 2 60 :: overlooked.tail

theorem due_tasks_start_two : ∃ s, run step (start 0 [0]) covered = some s ∧
    ⟨2, 60, false, false⟩ ∈ (s.timer 60 false fun _ => true).2 ∧
    ⟨1, 100, false, false⟩ ∈ (s.timer 100 false fun _ => true).2 := by
  have hmeets : Along step Meets (start 0 [0]) covered := by decide
  obtain ⟨-, -, hstart, -⟩ := due_tasks_start hmeets rfl
  exact ⟨_, rfl, hstart 60 _ _ (by decide) (by decide) (by decide),
    hstart 100 _ _ (by decide) (by decide) (by decide)⟩

/-- The task is now one of node 0, but the timer does not look at it. -/
theorem deleted_node_overlooks : ∃ s t, run step (start 0 [0]) overlooked = some s ∧
    t ∈ s.tasks ∧ s.waits t = true ∧ t.runAt = 100 ∧ ¬ s.Covered ∧
    (s.timer 200 false fun _ => true).2 = [] := by
  refine ⟨_, ⟨1, 100, false, false⟩, rfl, by decide, by decide, rfl, ?_, by decide⟩
  intro h
  exact absurd (h ⟨1, 100, false, false⟩ (by decide) (by decide)) (by decide)

end ThingsDB.Tasks
