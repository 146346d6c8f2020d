import ThingsDB.Closures.Layout

/-!
# What the calls of a query keep

The invariant of a query whose calls are calm: the stack has the layout of the active calls,
each call knows where its parameters are, and the values of the outer activations of a
closure are on `stacked` in order. `ti_closure_inc` and `ti_closure_dec` keep it.
-/

namespace ThingsDB.Closures

open Util Function List

variable {N V : Type} (params : ℕ → List N)

def argsOf (c : ℕ) (fs : List (Frame V)) : List (List V) :=
  (fs.filter fun f => f.closure = c).map Frame.args

def base : List (Frame V) → ℕ
  | [] => 0
  | f :: _ => f.n

/-- The stack below the parameters of a call to `c`. -/
def under (outer : List ℕ) (later : List ℕ) (fs : List (Frame V)) : List Var :=
  outer.map .loc ++ blocks params later fs

/-- What a call has recorded about the stack below it. -/
structure Recorded (outer : List ℕ) (stackPos : ℕ → ℕ → ℕ) (f : Frame V) (fs : List (Frame V)) :
    Prop where
  pos : stackPos f.closure ((closures fs).count f.closure) =
    (under params outer [f.closure] fs).length
  size : f.n = (under params outer [f.closure] fs).length + (params f.closure).length
  calm : Calm params (closures fs) f.closure
  before : f.before = under params outer [] fs
  prev : f.prevLocalStack = base fs
  args : f.args.length = (params f.closure).length

def Placed (outer : List ℕ) (stackPos : ℕ → ℕ → ℕ) : List (Frame V) → Prop
  | [] => True
  | f :: fs => Recorded params outer stackPos f fs ∧ Placed outer stackPos fs

/-- The calls have been calm so far. -/
structure Scoped (q : Query N V) : Prop where
  vars : q.vars = under params q.outer [] q.calls
  depth : ∀ c, q.depth c = (closures q.calls).count c
  placed : Placed params q.outer q.stackPos q.calls
  localStack : q.localStack = base q.calls
  vals : ∀ c vs, (argsOf c q.calls).head? = some vs → q.paramVals params c = vs
  stacked : ∀ c, q.stacked c = (argsOf c q.calls).tail.reverse.flatten

variable {params} {q r : Query N V} {outer : List ℕ} {sp sp' : ℕ → ℕ → ℕ} {f : Frame V}
  {fs : List (Frame V)} {c d : ℕ}

variable {above below : List (Frame V)}

section Frames

theorem Placed.congr (h : Placed params outer sp fs)
    (hsp : ∀ d k, k < (closures fs).count d → sp' d k = sp d k) : Placed params outer sp' fs := by
  induction fs with
  | nil => trivial
  | cons f fs ih =>
    obtain ⟨hf, hfs⟩ := h
    refine ⟨{ hf with pos := ?_ }, ih hfs fun d k hk => hsp d k ?_⟩
    · rw [hsp, hf.pos]
      simp [closures]
    · exact lt_of_lt_of_le hk (List.Sublist.count_le d (sublist_cons_self _ _))

theorem Placed.of_append
    (h : Placed params outer sp (above ++ below)) : Placed params outer sp below := by
  induction above with
  | nil => exact h
  | cons f above ih => exact ih h.2

theorem Placed.pos_last {g : Frame V}
    (h : Placed params outer sp (above ++ g :: below)) (habove : g.closure ∉ closures above) :
    sp g.closure ((closures (above ++ g :: below)).count g.closure - 1) =
      (under params outer [g.closure] below).length := by
  have hcount : (closures (above ++ g :: below)).count g.closure - 1 =
      (closures below).count g.closure := by
    have habove' : (closures above).count g.closure = 0 := count_eq_zero.mpr habove
    simp only [closures, map_append, map_cons, count_append, count_cons_self] at habove' ⊢
    omega
  rw [hcount]
  exact h.of_append.1.pos

/-- The parameters of an active closure go from the position of its last call to the end of
the stack, and back. -/
theorem Placed.exists_move (h : Placed params outer sp fs) (hcalm : Calm params (closures fs) c)
    (hactive : (closures fs).count c ≠ 0) :
    ∃ a m, under params outer [] fs = a ++ block params c ++ m ∧
      under params outer [c] fs = a ++ m ∧
      (params c = [] ∨ sp c ((closures fs).count c - 1) = a.length) := by
  by_cases hne : params c = []
  · refine ⟨under params outer [] fs, [], ?_, ?_, Or.inl hne⟩
    · rw [block_eq_nil hne, append_nil, append_nil]
    · rw [append_nil, under, blocks_cons_of_eq_nil hne, under]
  · obtain ⟨above, g, below, rfl, rfl, habove⟩ :=
      exists_last (count_pos_iff.mp (Nat.pos_of_ne_zero hactive))
    obtain ⟨a, m, hsplit⟩ := exists_split (outer.map .loc) hcalm habove hne
    exact ⟨a, m, hsplit.with_block, hsplit.without,
      Or.inr ((h.pos_last habove).trans hsplit.pos.symm)⟩

theorem argsOf_cons : argsOf c (f :: fs) =
    if f.closure = c then f.args :: argsOf c fs else argsOf c fs := by
  by_cases hf : f.closure = c
  · simp [argsOf, hf]
  · simp [argsOf, hf]

theorem argsOf_append (h : c ∉ closures above) : argsOf c (above ++ fs) = argsOf c fs := by
  rw [argsOf, filter_append, filter_eq_nil_iff.mpr, nil_append, argsOf]
  intro f hf heq
  exact h (of_decide_eq_true heq ▸ mem_map_of_mem hf)

theorem argsOf_eq_nil (h : (closures fs).count c = 0) : argsOf c fs = [] := by
  have happend : argsOf c (fs ++ []) = argsOf c [] := argsOf_append (count_eq_zero.mp h)
  rwa [append_nil] at happend

theorem exists_argsOf (h : (closures fs).count c ≠ 0) : ∃ vs rest, argsOf c fs = vs :: rest := by
  obtain ⟨above, g, below, rfl, hg, -⟩ :=
    exists_last (count_pos_iff.mp (Nat.pos_of_ne_zero h))
  cases hargs : argsOf c (above ++ g :: below) with
  | nil => simp [argsOf, hg] at hargs
  | cons vs rest => exact ⟨vs, rest, rfl⟩

theorem Placed.length_args (h : Placed params outer sp fs) :
    ∀ vs ∈ argsOf c fs, vs.length = (params c).length := by
  induction fs with
  | nil => simp [argsOf]
  | cons f fs ih =>
    intro vs hvs
    rw [argsOf_cons] at hvs
    split_ifs at hvs with hf
    · rcases mem_cons.mp hvs with rfl | hvs
      · rw [← hf, h.1.args]
      · exact ih h.2 vs hvs
    · exact ih h.2 vs hvs

end Frames

section Values

theorem paramVals_setParams_self {vals : List V} (h : (params c).length ≤ vals.length) :
    (q.setParams c vals).paramVals params c = vals.take (params c).length := by
  apply ext_getElem?
  intro i
  by_cases hi : i < (params c).length
  · simp [Query.paramVals, Query.setParams, block, hi, getElem?_eq_getElem (lt_of_lt_of_le hi h)]
  · rw [getElem?_eq_none, getElem?_eq_none]
    · simp only [length_take]
      omega
    · simpa [Query.paramVals] using hi

theorem paramVals_setParams_of_ne (h : d ≠ c) (vals : List V) :
    (q.setParams c vals).paramVals params d = q.paramVals params d := by
  simp [Query.paramVals, Query.setParams, block, h]

end Values

section Enter

theorem under_cons : under params outer [] (f :: fs) =
    under params outer [f.closure] fs ++ block params f.closure ++ f.locals.map .loc := by
  simp [under, blocks]

theorem Scoped.inc_vars (h : Scoped params q) (hcalm : Calm params (closures q.calls) c) :
    (if q.depth c = 0 then q.vars ++ block params c
      else vecMove q.vars (q.stackPos c (q.depth c - 1)) (params c).length
        (q.vars.length - (params c).length)) =
      under params q.outer [c] q.calls ++ block params c := by
  rw [h.depth]
  split_ifs with hzero
  · rw [h.vars, under, under, blocks_cons_of_notMem (count_eq_zero.mp hzero)]
  · obtain ⟨a, m, hwith, hwithout, hpos⟩ := h.placed.exists_move hcalm hzero
    rw [h.vars, hwith, hwithout]
    rcases hpos with hnil | hpos
    · rw [block_eq_nil hnil, vecMove, if_pos (Or.inr (by rw [hnil]; rfl))]
      simp
    · have hmove := vecMove_back a (block params c) m []
      rw [append_nil, append_nil, length_block] at hmove
      rw [hpos, ← hmove]
      congr 1
      simp only [length_append, length_block]
      omega

theorem Scoped.inc_stacked (h : Scoped params q) (hcount : (closures q.calls).count c ≠ 0) :
    q.stacked c ++ q.paramVals params c = (argsOf c q.calls).reverse.flatten := by
  obtain ⟨vs, rest, hargs⟩ := exists_argsOf hcount
  rw [h.stacked, h.vals c vs (by rw [hargs]; rfl), hargs]
  simp

theorem Scoped.enter [Inhabited V] [DecidableEq N] {args : List V} (h : Scoped params q)
    (hcalm : Calm params (closures q.calls) c)
    (hstep : step params q (.enter c args) = some r) : Scoped params r := by
  obtain ⟨hlen, hstep⟩ := Option.ite_none_right_eq_some.mp hstep
  obtain ⟨r, hinc, rfl⟩ := Option.map_eq_some_iff.mp hstep
  obtain ⟨-, hinc⟩ := Option.ite_none_left_eq_some.mp hinc
  have hr := Option.some.inj hinc
  have hvars : r.vars = under params q.outer [c] q.calls ++ block params c :=
    hr ▸ h.inc_vars hcalm
  have hdepth : r.depth = update q.depth c (q.depth c + 1) := hr ▸ rfl
  have hpos : r.stackPos = update q.stackPos c
      (update (q.stackPos c) (q.depth c) (r.vars.length - (params c).length)) := hr ▸ rfl
  have houter : r.outer = q.outer := hr ▸ rfl
  have hval : r.val = q.val := hr ▸ rfl
  have hstacked : r.stacked = if q.depth c = 0 then q.stacked
      else update q.stacked c (q.stacked c ++ q.paramVals params c) := hr ▸ rfl
  have hsize : r.vars.length - (params c).length = (under params q.outer [c] q.calls).length := by
    rw [hvars, length_append, length_block, Nat.add_sub_cancel]
  clear hr hinc
  constructor
  case vars =>
    change r.vars = _
    rw [under_cons, map_nil, append_nil, hvars, ← houter]
    rfl
  case depth =>
    intro d
    change r.depth d = (c :: closures q.calls).count d
    rw [hdepth, count_cons]
    by_cases hd : d = c
    · subst hd
      simp [h.depth]
    · simp [update_of_ne hd, Ne.symm hd, h.depth]
  case placed =>
    change Placed params r.outer r.stackPos _
    rw [houter]
    have hnew : r.stackPos c ((closures q.calls).count c) =
        (under params q.outer [c] q.calls).length := by
      rw [hpos, update_self, ← h.depth, update_self, hsize]
    refine ⟨?_, h.placed.congr ?_⟩
    · constructor
      case pos => exact hnew
      case size =>
        change r.vars.length = _
        rw [hvars, length_append, length_block]
      case calm => exact hcalm
      case before => exact h.vars
      case prev => exact h.localStack
      case args =>
        change (args.take _).length = _
        rw [length_take, Nat.min_eq_left hlen]
    · intro d k hk
      rw [hpos]
      by_cases hd : d = c
      · subst hd
        rw [update_self, update_of_ne]
        rw [h.depth]
        exact hk.ne
      · rw [update_of_ne hd]
  case localStack => rfl
  case vals =>
    intro d vs hvs
    change (r.setParams c args).paramVals params d = vs
    rw [argsOf_cons] at hvs
    by_cases hd : d = c
    · subst hd
      rw [if_pos rfl] at hvs
      rw [paramVals_setParams_self hlen]
      exact Option.some.inj hvs
    · rw [if_neg (Ne.symm hd)] at hvs
      rw [paramVals_setParams_of_ne hd, Query.paramVals, hval]
      exact h.vals d vs hvs
  case stacked =>
    intro d
    change r.stacked d = _
    rw [argsOf_cons, hstacked, h.depth]
    by_cases hd : d = c
    · subst hd
      rw [if_pos rfl, tail_cons]
      split_ifs with hzero
      · rw [h.stacked, argsOf_eq_nil hzero]
        rfl
      · rw [update_self, h.inc_stacked hzero]
    · rw [if_neg (Ne.symm hd), ← h.stacked]
      split_ifs
      · rfl
      · rw [update_of_ne hd]

end Enter

section Leave

section

variable (h : Scoped params q) (hcalls : q.calls = f :: fs)

include h hcalls

theorem Scoped.take_vars :
    q.vars.take f.n = under params q.outer [f.closure] fs ++ block params f.closure := by
  have hplaced := h.placed
  rw [hcalls] at hplaced
  rw [h.vars, hcalls, under_cons, hplaced.1.size, ← length_block, ← length_append, take_left]

theorem Scoped.dec_vars :
    (if (closures fs).count f.closure ≠ 0 then
      vecMove (q.vars.take f.n) (q.stackPos f.closure ((closures fs).count f.closure))
        (params f.closure).length
        (q.stackPos f.closure ((closures fs).count f.closure - 1))
      else (q.vars.take f.n).take ((q.vars.take f.n).length - (params f.closure).length)) =
      under params q.outer [] fs := by
  have hplaced := h.placed
  rw [hcalls] at hplaced
  obtain ⟨hf, hfs⟩ := hplaced
  rw [h.take_vars hcalls]
  split_ifs with hactive
  · obtain ⟨a, m, hwith, hwithout, hpos⟩ := hfs.exists_move hf.calm hactive
    rw [hf.pos, hwith, hwithout]
    rcases hpos with hnil | hpos
    · rw [block_eq_nil hnil, vecMove, if_pos (Or.inr (by rw [hnil]; rfl))]
      simp
    · have hmove := vecMove_front a (block params f.closure) m []
      rw [append_nil, append_nil, length_block, ← length_append] at hmove
      rw [hpos, hmove]
  · rw [length_append, length_block, Nat.add_sub_cancel, take_left, under, under,
      blocks_cons_of_notMem (count_eq_zero.mp (not_not.mp hactive))]

theorem Scoped.dec_stacked {vs : List V}
    {rest : List (List V)} (hargs : argsOf f.closure fs = vs :: rest) :
    (q.stacked f.closure).take ((q.stacked f.closure).length - (params f.closure).length) =
      rest.reverse.flatten ∧
    (q.stacked f.closure).drop ((q.stacked f.closure).length - (params f.closure).length) = vs := by
  have hplaced := h.placed
  rw [hcalls] at hplaced
  have hlen : vs.length = (params f.closure).length :=
    hplaced.2.length_args vs (hargs ▸ mem_cons_self)
  have hstacked : q.stacked f.closure = rest.reverse.flatten ++ vs := by
    rw [h.stacked, hcalls, argsOf_cons, if_pos rfl, tail_cons, hargs]
    simp
  rw [hstacked, length_append, hlen, Nat.add_sub_cancel]
  exact ⟨take_left, drop_left⟩

end

variable [Inhabited V] [DecidableEq N]

theorem Scoped.leave (h : Scoped params q) (hcalls : q.calls = f :: fs)
    (hstep : step params q .leave = some r) :
    Scoped params r ∧ r.calls = fs ∧ r.outer = q.outer := by
  have hplaced := h.placed
  rw [hcalls] at hplaced
  obtain ⟨hf, hfs⟩ := hplaced
  have hdepth : q.depth f.closure - 1 = (closures fs).count f.closure := by
    rw [h.depth, hcalls]
    simp [closures]
  have hr : { ({ q with vars := q.vars.take f.n } : Query N V).closureDec params f.closure with
      localStack := f.prevLocalStack, calls := fs } = r := by
    rw [step] at hstep
    split at hstep
    · next hnil => rw [hcalls] at hnil; cases hnil
    · next g gs hcons =>
      rw [hcalls] at hcons
      cases hcons
      exact Option.some.inj hstep
  have hcallsr : r.calls = fs := hr ▸ rfl
  obtain ⟨hdep, houter, hpos⟩ : r.depth = update q.depth f.closure (q.depth f.closure - 1) ∧
      r.outer = q.outer ∧ r.stackPos = q.stackPos := by
    rw [← hr, Query.closureDec]
    split_ifs <;> exact ⟨rfl, rfl, rfl⟩
  have hval : r.val = (q.setParams f.closure (if (closures fs).count f.closure ≠ 0 then
      (q.stacked f.closure).drop ((q.stacked f.closure).length - (params f.closure).length)
      else replicate (params f.closure).length default)).val := by
    rw [← hr, Query.closureDec]
    simp only [hdepth]
    split_ifs <;> rfl
  have hstacked : r.stacked = if (closures fs).count f.closure ≠ 0 then
      update q.stacked f.closure ((q.stacked f.closure).take
        ((q.stacked f.closure).length - (params f.closure).length)) else q.stacked := by
    rw [← hr, Query.closureDec]
    simp only [hdepth]
    split_ifs <;> rfl
  refine ⟨?_, hcallsr, houter⟩
  constructor
  case vars =>
    rw [hcallsr, houter, ← h.dec_vars hcalls, ← hr, Query.closureDec]
    simp only [hdepth]
    split_ifs <;> rfl
  case depth =>
    intro d
    rw [hdep, hcallsr]
    by_cases hd : d = f.closure
    · rw [hd, update_self, hdepth]
    · rw [update_of_ne hd, h.depth, hcalls, closures, map_cons, count_cons_of_ne (Ne.symm hd)]
      rfl
  case placed =>
    rw [hcallsr, houter, hpos]
    exact hfs
  case localStack => rw [hcallsr, ← hf.prev, ← hr]
  case vals =>
    intro d vs hvs
    rw [hcallsr] at hvs
    rw [Query.paramVals, hval]
    by_cases hd : d = f.closure
    · subst hd
      obtain ⟨rest, hrest⟩ := head?_eq_some_iff.mp hvs
      have hactive : (closures fs).count f.closure ≠ 0 := fun hzero => by
        rw [argsOf_eq_nil hzero] at hrest
        cases hrest
      rw [if_pos hactive, (h.dec_stacked hcalls hrest).2]
      have hlen : vs.length = (params f.closure).length :=
        hfs.length_args vs (hrest ▸ mem_cons_self)
      rw [← Query.paramVals, paramVals_setParams_self hlen.ge, ← hlen, take_length]
    · rw [← Query.paramVals, paramVals_setParams_of_ne hd]
      apply h.vals
      rwa [hcalls, argsOf_cons, if_neg (Ne.symm hd)]
  case stacked =>
    intro d
    rw [hcallsr, hstacked]
    by_cases hd : d = f.closure
    · subst hd
      split_ifs with hactive
      · obtain ⟨vs, rest, hrest⟩ := exists_argsOf hactive
        rw [update_self, (h.dec_stacked hcalls hrest).1, hrest, tail_cons]
      · rw [h.stacked, hcalls, argsOf_cons, if_pos rfl, tail_cons,
          argsOf_eq_nil (not_not.mp hactive)]
        rfl
    · have hother : q.stacked d = (argsOf d fs).tail.reverse.flatten := by
        rw [h.stacked, hcalls, argsOf_cons, if_neg (Ne.symm hd)]
      split_ifs
      · rw [update_of_ne hd, hother]
      · exact hother

end Leave

end ThingsDB.Closures
