import ThingsDB.Closures.Invariant

/-!
# Closure parameters are scoped

What a body does to variables keeps the invariant of the calls. With it a body finds its own
parameters, and a call which returns leaves the stack as it was.
-/

namespace ThingsDB.Closures

open Util Transition List

variable {N V : Type} {params : ℕ → List N} {q r : Query N V} {outer : List ℕ}
  {sp : ℕ → ℕ → ℕ} {f : Frame V} {fs : List (Frame V)} {c : ℕ}

variable {i : ℕ} {args : List V}

section Body

variable {v : Var} {x : V}

theorem closures_setArg : closures (setArg v x fs) = closures fs := by
  induction fs with
  | nil => rfl
  | cons f fs ih =>
    cases v with
    | loc id => rfl
    | param c i =>
      rw [setArg]
      split_ifs
      · rfl
      · exact congrArg (f.closure :: ·) ih

theorem blocks_setArg {later : List ℕ} :
    blocks params later (setArg v x fs) = blocks params later fs := by
  induction fs generalizing later with
  | nil => rfl
  | cons f fs ih =>
    cases v with
    | loc id => rfl
    | param c i =>
      rw [setArg]
      split_ifs
      · rfl
      · rw [blocks, ih, blocks]

theorem base_setArg : base (setArg v x fs) = base fs := by
  cases fs with
  | nil => rfl
  | cons f fs =>
    cases v with
    | loc id => rfl
    | param c i =>
      rw [setArg]
      split_ifs <;> rfl

theorem argsOf_setArg_param :
    argsOf c (setArg (.param c i) x fs) = (argsOf c fs).modifyHead (·.set i x) := by
  induction fs with
  | nil => rfl
  | cons f fs ih =>
    rw [setArg]
    split_ifs with hf
    · rw [argsOf_cons, argsOf_cons, if_pos hf, if_pos hf]
      rfl
    · rw [argsOf_cons, argsOf_cons, if_neg hf, if_neg hf, ih]

theorem argsOf_setArg_of_ne (h : ∀ i, v ≠ .param c i) : argsOf c (setArg v x fs) = argsOf c fs := by
  induction fs with
  | nil => rfl
  | cons f fs ih =>
    cases v with
    | loc id => rfl
    | param d i =>
      have hd : d ≠ c := fun heq => h i (heq ▸ rfl)
      rw [setArg]
      split_ifs with hf
      · have hne : f.closure ≠ c := hf ▸ hd
        rw [argsOf_cons, argsOf_cons, if_neg hne, if_neg hne]
      · rw [argsOf_cons, argsOf_cons, ih]

theorem Placed.setArg (h : Placed params outer sp fs) :
    Placed params outer sp (Closures.setArg v x fs) := by
  induction fs with
  | nil => trivial
  | cons f fs ih =>
    cases v with
    | loc id => exact h
    | param c i =>
      obtain ⟨hf, hfs⟩ := h
      rw [Closures.setArg]
      split_ifs
      · exact ⟨{ hf with args := (length_set ..).trans hf.args }, hfs⟩
      · refine ⟨?_, ih hfs⟩
        constructor
        case pos => rw [closures_setArg, under, blocks_setArg, hf.pos, under]
        case size => rw [under, blocks_setArg, hf.size, under]
        case calm => rw [closures_setArg]; exact hf.calm
        case before => rw [under, blocks_setArg, hf.before, under]
        case prev => rw [base_setArg, hf.prev]
        case args => exact hf.args

theorem paramVals_setVal_param :
    (q.setVal (.param c i) x).paramVals params c = (q.paramVals params c).set i x := by
  apply ext_getElem?
  intro j
  rw [getElem?_set]
  by_cases hj : j < (params c).length
  · by_cases hij : i = j
    · subst hij
      simp [Query.paramVals, Query.setVal, block, hj]
    · have hne : Var.param c j ≠ Var.param c i := fun heq => hij (Var.param.inj heq).2.symm
      simp [Query.paramVals, Query.setVal, block, hj, hij, Function.update_of_ne hne]
  · simp [Query.paramVals, Query.setVal, block, hj]
    omega

theorem paramVals_setVal_of_ne (h : ∀ i, v ≠ .param c i) :
    (q.setVal v x).paramVals params c = q.paramVals params c := by
  apply map_congr_left
  intro w hw
  obtain ⟨i, -, rfl⟩ := mem_map.mp hw
  exact Function.update_of_ne (Ne.symm (h i)) ..

theorem Scoped.set (h : Scoped params q) (v : Var) (x : V) :
    Scoped params { q.setVal v x with calls := setArg v x q.calls } := by
  constructor
  case vars =>
    change q.vars = under params q.outer [] (setArg v x q.calls)
    rw [under, blocks_setArg, h.vars, under]
  case depth =>
    intro d
    change q.depth d = (closures (setArg v x q.calls)).count d
    rw [closures_setArg, h.depth]
  case placed => exact h.placed.setArg
  case localStack => exact h.localStack.trans base_setArg.symm
  case vals =>
    intro d vs hvs
    change (argsOf d (setArg v x q.calls)).head? = some vs at hvs
    change (q.setVal v x).paramVals params d = vs
    by_cases hv : ∃ i, v = .param d i
    · obtain ⟨i, rfl⟩ := hv
      rw [argsOf_setArg_param, head?_modifyHead] at hvs
      obtain ⟨ws, hws, rfl⟩ := Option.map_eq_some_iff.mp hvs
      rw [paramVals_setVal_param, h.vals d ws hws]
    · have hne : ∀ i, v ≠ .param d i := fun i hi => hv ⟨i, hi⟩
      rw [argsOf_setArg_of_ne hne] at hvs
      rw [paramVals_setVal_of_ne hne, h.vals d vs hvs]
  case stacked =>
    intro d
    change q.stacked d = (argsOf d (setArg v x q.calls)).tail.reverse.flatten
    by_cases hv : ∃ i, v = .param d i
    · obtain ⟨i, rfl⟩ := hv
      rw [argsOf_setArg_param, tail_modifyHead, h.stacked]
    · rw [argsOf_setArg_of_ne fun i hi => hv ⟨i, hi⟩, h.stacked]

theorem Scoped.push (h : Scoped params q) (name : N) (x : V) : Scoped params (q.push name x) := by
  have hvals : ∀ d, (q.push name x).paramVals params d = q.paramVals params d := fun d =>
    paramVals_setVal_of_ne (fun i hi => Var.noConfusion hi)
  cases hcalls : q.calls with
  | nil =>
    have hpush : (q.push name x).calls = [] := by simp only [Query.push, hcalls]
    have houter : (q.push name x).outer = q.outer ++ [q.next] := by
      simp [Query.push, hcalls]
    constructor
    case vars =>
      change q.vars ++ [Var.loc q.next] = _
      rw [hpush, houter, h.vars, hcalls]
      simp [under, blocks]
    case depth =>
      intro d
      change q.depth d = _
      rw [hpush, h.depth, hcalls]
    case placed => rw [hpush]; trivial
    case localStack => rw [hpush, ← hcalls]; exact h.localStack
    case vals =>
      intro d vs hvs
      rw [hpush] at hvs
      cases hvs
    case stacked =>
      intro d
      change q.stacked d = _
      rw [hpush, h.stacked, hcalls]
  | cons f fs =>
    have hpush : (q.push name x).calls = { f with locals := f.locals ++ [q.next] } :: fs := by
      simp only [Query.push, hcalls]
    have houter : (q.push name x).outer = q.outer := by simp [Query.push, hcalls]
    have hargs : ∀ d, argsOf d (q.push name x).calls = argsOf d q.calls := by
      intro d
      rw [hpush, hcalls, argsOf_cons, argsOf_cons]
    have hplaced := h.placed
    rw [hcalls] at hplaced
    constructor
    case vars =>
      change q.vars ++ [Var.loc q.next] = _
      rw [hpush, houter, h.vars, hcalls, under_cons, under_cons]
      simp
    case depth =>
      intro d
      change q.depth d = _
      rw [hpush, h.depth, hcalls]
      rfl
    case placed =>
      rw [hpush, houter]
      exact ⟨{ hplaced.1 with }, hplaced.2⟩
    case localStack =>
      rw [hpush]
      exact h.localStack.trans (by rw [hcalls]; rfl)
    case vals =>
      intro d vs hvs
      rw [hargs] at hvs
      rw [hvals, h.vals d vs hvs]
    case stacked =>
      intro d
      rw [hargs]
      exact h.stacked d

theorem Scoped.again (h : Scoped params q) (hcalls : q.calls = f :: fs)
    (hlen : (params f.closure).length ≤ args.length) :
    Scoped params { q.setParams f.closure args with
      vars := q.vars.take f.n
      calls := { f with args := args.take (params f.closure).length, locals := [] } :: fs } := by
  have hplaced := h.placed
  rw [hcalls] at hplaced
  constructor
  case vars =>
    change q.vars.take f.n = _
    rw [h.take_vars hcalls, under_cons, map_nil, append_nil]
    rfl
  case depth =>
    intro d
    change q.depth d = _
    rw [h.depth, hcalls]
    rfl
  case placed =>
    refine ⟨{ hplaced.1 with args := ?_ }, hplaced.2⟩
    change (args.take _).length = _
    rw [length_take, Nat.min_eq_left hlen]
  case localStack => exact h.localStack.trans (by rw [hcalls]; rfl)
  case vals =>
    intro d vs hvs
    change (q.setParams f.closure args).paramVals params d = vs
    rw [argsOf_cons] at hvs
    by_cases hd : d = f.closure
    · subst hd
      rw [if_pos rfl] at hvs
      rw [paramVals_setParams_self hlen]
      exact Option.some.inj hvs
    · rw [if_neg (Ne.symm hd)] at hvs
      rw [paramVals_setParams_of_ne hd]
      apply h.vals
      rwa [hcalls, argsOf_cons, if_neg (Ne.symm hd)]
  case stacked =>
    intro d
    change q.stacked d = _
    rw [h.stacked, hcalls, argsOf_cons, argsOf_cons]
    split_ifs <;> rfl

end Body

section Run

variable [Inhabited V] [DecidableEq N] {a : Action N V}

/-- A call does not make two closures active in turn. -/
def CalmCall (params : ℕ → List N) (q : Query N V) : Action N V → Prop
  | .enter c _ => Calm params (closures q.calls) c
  | _ => True

theorem Scoped.step (h : Scoped params q) (hcalm : CalmCall params q a)
    (hstep : step params q a = some r) : Scoped params r := by
  cases a with
  | enter c args => exact h.enter hcalm hstep
  | again args =>
    cases hcalls : q.calls with
    | nil => simp only [Closures.step, hcalls, reduceCtorEq] at hstep
    | cons f fs =>
      rw [Closures.step] at hstep
      split at hstep
      · cases hstep
      · next g gs hcons =>
        obtain ⟨hlen, hr⟩ := Option.ite_none_right_eq_some.mp hstep
        exact Option.some.inj hr ▸ h.again hcons hlen
  | assign name x =>
    rw [Closures.step] at hstep
    split at hstep
    · exact Option.some.inj hstep ▸ h.set _ x
    · exact Option.some.inj hstep ▸ h.push name x
  | update name x =>
    obtain ⟨v, -, rfl⟩ := Option.map_eq_some_iff.mp hstep
    exact h.set v x
  | leave =>
    cases hcalls : q.calls with
    | nil => simp only [Closures.step, hcalls, reduceCtorEq] at hstep
    | cons f fs => exact (h.leave hcalls hstep).1

structure Start (q : Query N V) : Prop where
  calls : q.calls = []
  vars : q.vars = q.outer.map .loc
  localStack : q.localStack = 0
  depth : ∀ c, q.depth c = 0
  stacked : ∀ c, q.stacked c = []

omit [Inhabited V] [DecidableEq N] in
theorem Start.scoped (h : Start q) : Scoped params q := by
  constructor
  case vars => rw [h.vars, h.calls]; simp [under, blocks]
  case depth => intro c; rw [h.depth, h.calls]; rfl
  case placed => rw [h.calls]; trivial
  case localStack => rw [h.localStack, h.calls]; rfl
  case vals =>
    intro c vs hvs
    rw [h.calls] at hvs
    cases hvs
  case stacked => intro c; rw [h.stacked, h.calls]; rfl

omit [DecidableEq N] in
theorem mem_block {v : Var} : v ∈ block params c ↔ ∃ i < (params c).length, v = .param c i := by
  simp only [block, mem_map, mem_range, eq_comm]

omit [Inhabited V] [DecidableEq N] in
/-- The parameters of the innermost call have its arguments. -/
theorem Scoped.args_getElem? (h : Scoped params q) (hcalls : q.calls = f :: fs)
    (hi : i < (params f.closure).length) : f.args[i]? = some (q.val (.param f.closure i)) := by
  have hargs : q.paramVals params f.closure = f.args :=
    h.vals f.closure f.args (by rw [hcalls, argsOf_cons, if_pos rfl]; rfl)
  rw [← hargs]
  simp [Query.paramVals, block, hi]

/-- While a body runs and has no variable of that name, the name of a parameter is the name
of the parameter of the innermost call, which has the argument of the call. -/
def FindsParams (params : ℕ → List N) (q : Query N V) : Prop :=
  ∀ f fs, q.calls = f :: fs → ∀ name ∈ params f.closure,
    (∀ id ∈ f.locals, q.name id ≠ name) →
      ∃ i, q.varGet params name = some (.param f.closure i) ∧
        (params f.closure)[i]? = some name ∧ f.args[i]? = some (q.val (.param f.closure i))

/-- When the innermost call returns, the stack is as before the call and the parameters of
the calls around it have their values. -/
def RestoresParams (params : ℕ → List N) (q : Query N V) : Prop :=
  ∀ r f fs, q.calls = f :: fs → step params q .leave = some r →
    r.vars = f.before ∧ ∀ above g below, fs = above ++ g :: below →
      g.closure ∉ closures above → r.paramVals params g.closure = g.args

omit [Inhabited V] in
theorem Scoped.findsParams (h : Scoped params q) : FindsParams params q := by
  intro f fs hcalls name hname hlocals
  have hvars : q.vars.reverse = (f.locals.map Var.loc).reverse ++
      ((block params f.closure).reverse ++ (under params q.outer [f.closure] fs).reverse) := by
    rw [h.vars, hcalls, under_cons]
    simp
  have hskip : (f.locals.map Var.loc).reverse.find?
      (fun v => q.nameOf params v = some name) = none := by
    rw [find?_eq_none]
    intro v hv
    obtain ⟨id, hid, rfl⟩ := mem_map.mp (mem_reverse.mp hv)
    simpa [Query.nameOf] using hlocals id hid
  obtain ⟨v, hv⟩ : ∃ v, (block params f.closure).reverse.find?
      (fun v => q.nameOf params v = some name) = some v := by
    rw [← Option.isSome_iff_exists, find?_isSome]
    obtain ⟨i, hi, heq⟩ := mem_iff_getElem.mp hname
    refine ⟨.param f.closure i, mem_reverse.mpr (mem_block.mpr ⟨i, hi, rfl⟩), ?_⟩
    simp [Query.nameOf, hi, heq]
  obtain ⟨i, hi, rfl⟩ := mem_block.mp (mem_reverse.mp (mem_of_find?_eq_some hv))
  refine ⟨i, ?_, ?_, h.args_getElem? hcalls hi⟩
  · rw [Query.varGet, hvars, find?_append, hskip, find?_append, hv]
    rfl
  · have hfound := find?_some hv
    exact of_decide_eq_true hfound

theorem Scoped.restoresParams (h : Scoped params q) : RestoresParams params q := by
  intro r f fs hcalls hstep
  obtain ⟨hr, hrcalls, houter⟩ := h.leave hcalls hstep
  have hplaced := h.placed
  rw [hcalls] at hplaced
  constructor
  · rw [hr.vars, hrcalls, houter, hplaced.1.before]
  · intro above g below hfs habove
    apply hr.vals
    rw [hrcalls, hfs, argsOf_append habove, argsOf_cons, if_pos rfl]
    rfl

/-- In a run where no two closures with parameters become active in turn, every body finds
the parameters of its own call, and every call leaves the stack and the parameters around it
as they were. -/
theorem calls_scoped {q₀ : Query N V} {as : List (Action N V)} (hstart : Start q₀)
    (hcalm : Along (step params) (CalmCall params) q₀ as)
    (hrun : run (step params) q₀ as = some q) :
    FindsParams params q ∧ RestoresParams params q := by
  have hscoped : Scoped params q :=
    run_invariant_along (fun _ _ _ h hc hstep => h.step hc hstep) hstart.scoped hcalm hrun
  exact ⟨hscoped.findsParams, hscoped.restoresParams⟩

end Run

section Turn

/-- Two closures with one parameter `x` each. -/
def oneParam (_ : ℕ) : List String := ["x"]

def fresh : Query String ℕ where
  vars := []
  localStack := 0
  val := fun _ => 0
  name := fun _ => ""
  next := 0
  depth := fun _ => 0
  stackPos := fun _ _ => 0
  stacked := fun _ => []
  calls := []
  outer := []

theorem fresh_start : Start fresh :=
  ⟨rfl, rfl, rfl, fun _ => rfl, fun _ => rfl⟩

/-- When two closures call each other, the second call of the second closure finds the
parameter of the first one. -/
theorem calls_not_scoped : ∃ q, run (step oneParam) fresh
    [.enter 0 [10], .enter 1 [11], .enter 0 [12], .enter 1 [13]] = some q ∧
    ¬FindsParams oneParam q := by
  obtain ⟨q, hrun⟩ : ∃ q, run (step oneParam) fresh
    [.enter 0 [10], .enter 1 [11], .enter 0 [12], .enter 1 [13]] = some q := ⟨_, rfl⟩
  have hcalls : (run (step oneParam) fresh [.enter 0 [10], .enter 1 [11], .enter 0 [12],
      .enter 1 [13]]).map (fun q => q.calls.map fun f => (f.closure, f.locals)) =
      some [(1, []), (0, []), (1, []), (0, [])] := rfl
  have hget : (run (step oneParam) fresh [.enter 0 [10], .enter 1 [11], .enter 0 [12],
      .enter 1 [13]]).bind (fun q => q.varGet oneParam "x") = some (.param 0 0) := by decide
  rw [hrun] at hcalls hget
  refine ⟨q, hrun, fun h => ?_⟩
  cases hq : q.calls with
  | nil => simp [hq] at hcalls
  | cons f fs =>
    simp only [Option.map_some, hq, List.map_cons, Option.some.injEq, List.cons.injEq,
      Prod.mk.injEq] at hcalls
    obtain ⟨⟨hclosure, hlocals⟩, -⟩ := hcalls
    obtain ⟨i, hown, -⟩ := h f fs hq "x" (by simp [oneParam]) (by simp [hlocals])
    rw [Option.bind_some, hown, hclosure] at hget
    cases hget

theorem calm_of_length {active : List ℕ} (h : active.length < 3) : Calm params active c :=
  fun _ _ _ _ hsub => absurd hsub.length_le (Nat.not_le.mpr h)

theorem closures_enter [Inhabited V] [DecidableEq N]
    (hstep : step params q (.enter c args) = some r) :
    closures r.calls = c :: closures q.calls := by
  obtain ⟨-, hstep⟩ := Option.ite_none_right_eq_some.mp hstep
  obtain ⟨r, -, rfl⟩ := Option.map_eq_some_iff.mp hstep
  rfl

theorem calls_scoped_nested : ∃ q, run (step oneParam) fresh
    [.enter 0 [10], .enter 1 [11], .enter 0 [12]] = some q ∧
    FindsParams oneParam q ∧ RestoresParams oneParam q := by
  obtain ⟨q, hrun⟩ : ∃ q, run (step oneParam) fresh
    [.enter 0 [10], .enter 1 [11], .enter 0 [12]] = some q := ⟨_, rfl⟩
  refine ⟨q, hrun, calls_scoped fresh_start ?_ hrun⟩
  refine ⟨calm_of_length (by decide), fun q₁ h₁ => ?_⟩
  have hq₁ := closures_enter h₁
  refine ⟨calm_of_length (by rw [hq₁]; decide), fun q₂ h₂ => ?_⟩
  have hq₂ := closures_enter h₂
  exact ⟨calm_of_length (by rw [hq₂, hq₁]; decide), fun _ _ => trivial⟩

end Turn

end ThingsDB.Closures
