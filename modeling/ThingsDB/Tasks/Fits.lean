import ThingsDB.Lib.Transition
import ThingsDB.Lists.Tuples
import ThingsDB.Tasks.Args

/-!
# Arguments which fit the closure

On every node a task has as many arguments as its closure has parameters, where the first is `nil`
unless the task is running. A run can break this if the closure changes the arguments or the closure
of its own task.
-/

namespace ThingsDB.Tasks.Args

open ThingsDB.Lists Replicated List

/-- The arguments fit the closure, and the first one is `nil`. -/
structure Task.Fits (t : Task) : Prop where
  length : t.args.length = t.closure.params
  first : ∀ v, t.args.head? = some v → v = .nil

structure Task.Alike (t u : Task) : Prop where
  closure : t.closure = u.closure
  args : Same t.args u.args

section Same

variable {l l' : List Val} {v : Val} {t u : Task}

theorem eq_nil_of_strip (h : v.strip = .nil) : v = .nil := by
  cases v <;> simp [Val.strip] at h ⊢

theorem eq_task_of_strip {n : ℕ} (h : v.strip = .task n) : v = .task n := by
  cases v <;> simp [Val.strip] at h ⊢
  exact h

/-- The elements of an array are read, and they are the same up to their representation. -/
theorem exists_readArgs (h : nestedVec l) : ∃ r, readArgs l = some r ∧ Same l r := by
  obtain ⟨x, hx, -⟩ := decodeVec_spec l ⟨false, false, false⟩ h
  refine ⟨x.2, by rw [readArgs, hx]; rfl, ?_⟩
  rw [Same, ← Val.stripAll_eq_map, ← Val.stripAll_eq_map, stripAll_decodeVec l _ x hx]

theorem nestedVec_args (hl : nestedVec l) (hl' : nestedVec l') (n : ℕ) :
    nestedVec (l ++ l' ++ replicate n .nil) := by
  rw [nestedVec_iff ⟨false, false, false⟩] at *
  intro v hv
  rw [mem_append, mem_append] at hv
  rcases hv with (hv | hv) | hv
  · exact hl v hv
  · exact hl' v hv
  · exact eq_of_mem_replicate hv ▸ ⟨rfl, rfl⟩

theorem head_of_same (h : Same l l') (hv : l'.head? = some v) :
    ∃ w, l.head? = some w ∧ w.strip = v.strip := by
  have hhead := congrArg List.head? h
  rw [head?_map, head?_map, hv] at hhead
  exact Option.map_eq_some_iff.mp hhead

theorem Task.Alike.length (h : t.Alike u) : t.args.length = u.args.length := by
  simpa [Same] using congrArg List.length h.args

theorem Task.Alike.fits (h : t.Alike u) (hu : u.Fits) : t.Fits := by
  refine ⟨?_, fun v hv => ?_⟩
  · rw [h.length, hu.length, h.closure]
  · obtain ⟨w, hw, heq⟩ := head_of_same h.args.symm hv
    rw [hu.first w hw] at heq
    exact eq_nil_of_strip heq.symm

theorem Task.Alike.setClosure (h : t.Alike u) (c : Closure) :
    (t.setClosure c).Alike (u.setClosure c) := by
  refine ⟨by simp, ?_⟩
  have hargs := h.args
  rw [args_setClosure, args_setClosure, h.length]
  unfold Same at hargs ⊢
  rw [map_append, map_append, map_take, map_take, hargs]

theorem alike_refl (t : Task) : t.Alike t := ⟨rfl, rfl⟩

theorem alike_replay {t u : Option Task} (e : Emit) (h : Option.Rel Task.Alike t u) :
    Option.Rel Task.Alike (replay t e) (replay u e) := by
  cases e with
  | new c args =>
    rw [replay, replay]
    cases readArgs args with
    | none => exact h
    | some r => exact .some (alike_refl _)
  | del => exact .none
  | setArgs args =>
    cases h with
    | none => exact .none
    | @some t u h =>
      refine .some ⟨h.closure, ?_⟩
      cases readArgs args with
      | none => exact h.args
      | some r => rfl
  | setClosure c =>
    cases h with
    | none => exact .none
    | some h => exact .some (h.setClosure c)

end Same

/-- What is known of a task while a query has it: the number of parameters, if the first argument
is the task, and if it is the task on the other nodes. -/
structure Marks where
  params : ℕ
  own : Bool
  sent : Bool
  deriving DecidableEq, Repr

section Run

variable (S : Scope)

/-- A closure without parameters clears the arguments; `set_args` sends the first one too. -/
def Marks.call (k : Marks) : Call → Marks
  | .setArgs vals =>
    if checkArgs S vals k.params = none then { k with sent := k.own } else k
  | .setClosure (some c) =>
    if S.unbound c = none then
      if c.params = 0 then ⟨0, false, false⟩ else { k with params := c.params }
    else k
  | .setClosure none | .del => k

def Call.isDel : Call → Bool
  | .del => true
  | _ => false

def runMarks (t : Task) (cs : List Call) : Marks :=
  cs.foldl (Marks.call S) ⟨t.closure.params, t.closure.params ≠ 0, false⟩

/-- A run which leaves arguments that fit: the last closure which is set has parameters, and
`set_args` is not called while the first argument is the task, unless the arguments are cleared
afterwards. -/
def Change.Quiet (t : Option Task) : Change → Prop
  | .run cs done => ∀ u, t = some u → u.closure.params ≠ 0 → cs.any Call.isDel = false →
      (runMarks S u cs).params ≠ 0 ∧
        ((runMarks S u cs).sent = true → done = true)
  | _ => True

/-- The values are such as an array has: an array of `values()` may be a list, which stays the one
of a property, or a set, which other nodes do not read. -/
def Call.Plain : Call → Prop
  | .setArgs vals => nestedVec vals = true
  | _ => True

def Change.Plain : Change → Prop
  | .create _ vals => nestedVec vals = true
  | .query cs | .run cs _ => ∀ c ∈ cs, c.Plain

def firstArg (own : Bool) : Val := if own then .task S.id else .nil

/-- A task on the node of a query, and on another node which has applied what is left so far. -/
structure Follows (k : Marks) (t u : Task) : Prop where
  params : t.closure.params = k.params
  closure : t.closure = u.closure
  length : t.args.length = k.params
  length_other : u.args.length = k.params
  tail : Same t.args.tail u.args.tail
  own : ∀ v, t.args.head? = some v → v = firstArg S k.own
  sent : ∀ v, u.args.head? = some v → v = firstArg S k.sent
  zero : k.params = 0 → k.own = false ∧ k.sent = false

end Run

section Follows

variable {S : Scope} {k : Marks} {t u : Task} {vals : List Val}

theorem eq_firstArg_of_strip {own : Bool} {v : Val} (h : v.strip = (firstArg S own).strip) :
    v = firstArg S own := by
  cases own with
  | true => exact eq_task_of_strip h
  | false => exact eq_nil_of_strip h

theorem checkArgs_none {m : ℕ} (h : checkArgs S vals m = none) : vals.length < m ∨ vals = [] := by
  unfold checkArgs numArgs at h
  split at h
  · cases h
  · next hnum =>
    split_ifs at hnum with hcond
    rw [not_and_or, not_not, not_le] at hcond
    rcases hcond with hnil | hlt
    · exact .inr (length_eq_zero_iff.mp hnil)
    · exact .inl hlt

theorem Follows.clean (h : Follows S k t u) (hown : k.own = false) (hsent : k.sent = false) :
    t.Alike u ∧ t.Fits := by
  have hfits : t.Fits := by
    refine ⟨h.length.trans h.params.symm, fun v hv => ?_⟩
    rw [h.own v hv, hown]
    rfl
  refine ⟨⟨h.closure, ?_⟩, hfits⟩
  have hlen := h.length.trans h.length_other.symm
  have htail := h.tail
  cases ht : t.args with
  | nil =>
    rw [ht] at hlen
    rw [length_eq_zero_iff.mp hlen.symm]
    rfl
  | cons v l =>
    cases hu : u.args with
    | nil => simp [ht, hu] at hlen
    | cons w l' =>
      have hv := h.own v (by rw [ht]; rfl)
      have hw := h.sent w (by rw [hu]; rfl)
      rw [ht, hu] at htail
      rw [hown] at hv
      rw [hsent] at hw
      rw [hv, hw]
      exact congrArg (List.cons _) htail

theorem Follows.leave (h : Follows S k t u) (hne : k.params ≠ 0) :
    ∃ args, vecSet t.args .nil 0 = some args ∧
      Follows S { k with own := false } { t with args := args } u := by
  have hpos : 0 < t.args.length := by
    rw [h.length]
    omega
  refine ⟨t.args.set 0 .nil, if_pos hpos, ?_⟩
  refine ⟨h.params, h.closure, ?_, h.length_other, ?_, ?_, h.sent, fun h0 => absurd h0 hne⟩
  · rw [length_set]
    exact h.length
  · cases ht : t.args with
    | nil => simp [ht] at hpos
    | cons v l => simpa [ht] using h.tail
  · intro v hv
    cases ht : t.args with
    | nil => simp [ht] at hpos
    | cons w l =>
      rw [ht] at hv
      exact (Option.some.inj hv).symm

theorem Follows.setArgs (h : Follows S k t u) (hplain : nestedVec vals)
    (hcheck : checkArgs S vals k.params = none) :
    ∃ args, storeArgs t.args vals t.closure.params = some args ∧
      Follows S { k with sent := k.own } { t with args := args }
        { u with args := (readArgs args).getD u.args } := by
  have hvals := checkArgs_none hcheck
  refine ⟨_, storeArgs_eq (h.length.trans h.params.symm) (h.params ▸ hvals), ?_⟩
  rw [h.params]
  have hown : ∀ v, (t.args.take 1 ++ vals ++ replicate (k.params - 1 - vals.length) Val.nil).head? =
      some v → v = firstArg S k.own := by
    intro v hv
    cases ht : t.args with
    | nil =>
      have h0 : k.params = 0 := by rw [← h.length, ht]; rfl
      have hnil : vals = [] := hvals.resolve_left (by omega)
      simp [ht, h0, hnil] at hv
    | cons w l =>
      rw [ht] at hv
      exact h.own v (by rw [ht]; exact hv)
  have hlen : (t.args.take 1 ++ vals ++
      replicate (k.params - 1 - vals.length) Val.nil).length = k.params := by
    simp only [length_append, length_take, h.length, length_replicate]
    rcases hvals with hlt | rfl
    · omega
    · simp only [length_nil]
      omega
  have hfirst : nestedVec (t.args.take 1) := by
    cases ht : t.args with
    | nil => rfl
    | cons v l =>
      rw [h.own v (by rw [ht]; rfl), firstArg]
      split_ifs <;> rfl
  obtain ⟨r, hr, hsame⟩ := exists_readArgs (nestedVec_args hfirst hplain _)
  rw [hr, Option.getD_some]
  refine ⟨h.params, h.closure, hlen, hsame.length_eq.symm.trans hlen, ?_, hown, ?_,
    fun h0 => ⟨(h.zero h0).1, (h.zero h0).1⟩⟩
  · unfold Same at hsame ⊢
    rw [map_tail, map_tail, hsame]
  · intro v hv
    obtain ⟨w, hw, heq⟩ := head_of_same hsame hv
    rw [hown w hw] at heq
    exact eq_firstArg_of_strip heq.symm

theorem head_setClosure {c : Closure} {v : Val} (hc : c.params ≠ 0)
    (hv : (t.setClosure c).args.head? = some v) :
    t.args.head? = some v ∨ t.args = [] ∧ v = .nil := by
  obtain ⟨q, hq⟩ := Nat.exists_eq_succ_of_ne_zero hc
  rw [args_setClosure, hq] at hv
  cases ht : t.args with
  | nil =>
    rw [ht] at hv
    simp only [take_nil, nil_append, length_nil, Nat.sub_zero, replicate_succ,
      head?_cons, Option.some.injEq] at hv
    exact .inr ⟨rfl, hv.symm⟩
  | cons w l =>
    rw [ht] at hv
    exact .inl hv

theorem length_setClosure (t : Task) (c : Closure) : (t.setClosure c).args.length = c.params := by
  rw [args_setClosure, length_append, length_take, length_replicate]
  omega

theorem Follows.setClosure (h : Follows S k t u) (c : Closure) (hc : S.unbound c = none) :
    Follows S (k.call S (.setClosure (some c))) (t.setClosure c)
      (u.setClosure c) := by
  have hlen := h.length.trans h.length_other.symm
  have htail : Same (t.setClosure c).args.tail (u.setClosure c).args.tail := by
    have hargs := h.tail
    unfold Same at hargs ⊢
    rw [args_setClosure, args_setClosure, hlen]
    cases ht : t.args with
    | nil =>
      rw [ht] at hlen
      rw [length_eq_zero_iff.mp hlen.symm]
    | cons v l =>
      cases hu : u.args with
      | nil => simp [ht, hu] at hlen
      | cons w l' =>
        rw [ht, hu] at hargs
        cases c.params with
        | zero => rfl
        | succ q =>
          simp only [take_succ_cons, cons_append, tail_cons, map_append, map_take] at hargs ⊢
          rw [hargs]
  by_cases h0 : c.params = 0
  · have hempty : ∀ t : Task, (t.setClosure c).args = [] := fun t =>
      length_eq_zero_iff.mp ((length_setClosure t c).trans h0)
    rw [Marks.call, if_pos hc, if_pos h0]
    refine ⟨?_, ?_, ?_, ?_, htail, ?_, ?_, fun _ => ⟨rfl, rfl⟩⟩ <;> simp [hempty, h0]
  · rw [Marks.call, if_pos hc, if_neg h0]
    refine ⟨by simp, by simp, length_setClosure t c, length_setClosure u c, htail, ?_, ?_,
      fun hz => absurd hz h0⟩
    · intro v hv
      rcases head_setClosure h0 hv with hold | ⟨hnil, rfl⟩
      · exact h.own v hold
      · have hz : k.params = 0 := by rw [← h.length, hnil]; rfl
        rw [(h.zero hz).1]
        rfl
    · intro v hv
      rcases head_setClosure h0 hv with hold | ⟨hnil, rfl⟩
      · exact h.sent v hold
      · have hz : k.params = 0 := by rw [← h.length_other, hnil]; rfl
        rw [(h.zero hz).2]
        rfl

/-- A call does not write outside of the arguments. -/
theorem follows_call (h : Follows S k t u) {c : Call} (hplain : c.Plain) :
    ∃ t' es e, call S (some t) c = some (t', es, e) ∧
      Option.Rel (Follows S (k.call S c)) t'
        (es.foldl replay (some u)) ∧ (t' = none ↔ c.isDel) := by
  cases c with
  | del => exact ⟨none, _, _, rfl, .none, by simp [Call.isDel]⟩
  | setArgs vals =>
    simp only [call, Marks.call, h.params]
    cases hcheck : checkArgs S vals k.params with
    | some e => exact ⟨_, _, _, rfl, .some (by simpa using h), by simp [Call.isDel]⟩
    | none =>
      obtain ⟨args, hstore, hfollows⟩ := h.setArgs hplain hcheck
      rw [h.params] at hstore
      rw [hstore]
      exact ⟨_, _, _, rfl, .some hfollows, by simp [Call.isDel]⟩
  | setClosure c =>
    cases c with
    | none => exact ⟨_, _, _, rfl, .some h, by simp [Call.isDel]⟩
    | some c =>
      simp only [call]
      cases hc : S.unbound c with
      | some e =>
        exact ⟨_, _, _, rfl, .some (by simpa [Marks.call, hc] using h), by simp [Call.isDel]⟩
      | none => exact ⟨_, _, _, rfl, .some (h.setClosure c hc), by simp [Call.isDel]⟩

theorem calls_none (cs : List Call) : calls S none cs = some (none, []) := by
  induction cs with
  | nil => rfl
  | cons c cs ih =>
    have hc : ∃ e, call S none c = some (none, [], e) := by
      cases c <;> exact ⟨_, rfl⟩
    obtain ⟨e, he⟩ := hc
    rw [calls, he, Option.bind_some, ih]
    rfl

theorem follows_calls (h : Follows S k t u) {cs : List Call} (hplain : ∀ c ∈ cs, c.Plain) :
    ∃ t' es, calls S (some t) cs = some (t', es) ∧
      Option.Rel (Follows S (cs.foldl (Marks.call S) k)) t'
        (es.foldl replay (some u)) ∧ (t' = none ↔ cs.any Call.isDel) := by
  induction cs generalizing k t u with
  | nil => exact ⟨some t, [], rfl, .some h, by simp⟩
  | cons c cs ih =>
    obtain ⟨t₁, es, e, hcall, hrel, hdel⟩ := follows_call h (hplain c mem_cons_self)
    rw [calls, hcall, Option.bind_some]
    cases t₁ with
    | none =>
      have hnone : es.foldl replay (some u) = none := by
        generalize es.foldl replay (some u) = o at hrel
        cases hrel
        rfl
      rw [calls_none]
      refine ⟨none, es, by simp, ?_, by simp [hdel.mp rfl]⟩
      rw [hnone]
      exact .none
    | some t₁ =>
      generalize hu : es.foldl replay (some u) = o at hrel
      cases hrel with
      | some hfollows =>
        obtain ⟨t', es', hcalls, hrel', hdel'⟩ :=
          ih hfollows fun c hc => hplain c (mem_cons_of_mem _ hc)
        have hc : c.isDel = false := by simpa using hdel
        refine ⟨t', es ++ es', by rw [hcalls]; rfl, ?_, ?_⟩
        · rw [foldl_append, hu]
          exact hrel'
        · rw [hdel', any_cons, hc, Bool.false_or]

end Follows

section Exec

variable {S : Scope} {t u : Task}

/-- A task which fits, with a copy on another node. -/
theorem follows_of_alike (h : t.Alike u) (hu : u.Fits) :
    Follows S ⟨t.closure.params, false, false⟩ t u := by
  have ht := h.fits hu
  have htail : Same t.args.tail u.args.tail := by
    have hargs := h.args
    unfold Same at hargs ⊢
    rw [map_tail, map_tail, hargs]
  refine ⟨rfl, h.closure, ht.length, h.length.symm.trans ht.length, htail, ht.first, hu.first, ?_⟩
  exact fun _ => ⟨rfl, rfl⟩

theorem Follows.enter {n : ℕ} (h : Follows S ⟨n, false, false⟩ t u) :
    Follows S ⟨n, n ≠ 0, false⟩ (enter S t) u := by
  unfold Args.enter
  cases ht : t.args with
  | nil =>
    have hn : n = 0 := by
      have hlen := h.length
      rw [ht] at hlen
      exact hlen.symm
    subst hn
    rw [set_nil, ← ht]
    exact h
  | cons v l =>
    have hlen := h.length
    have htail := h.tail
    rw [ht] at hlen htail
    have hn : n ≠ 0 := by
      rintro rfl
      simp at hlen
    refine ⟨h.params, h.closure, hlen, h.length_other, htail, ?_, h.sent, fun h0 => absurd h0 hn⟩
    intro w hw
    rw [set_cons_zero, head?_cons, Option.some.injEq] at hw
    simp [firstArg, hn, hw.symm]

theorem marks_clean (cs : List Call) {k : Marks} (hown : k.own = false) (hsent : k.sent = false) :
    (cs.foldl (Marks.call S) k).own = false ∧ (cs.foldl (Marks.call S) k).sent = false := by
  induction cs generalizing k with
  | nil => exact ⟨hown, hsent⟩
  | cons c cs ih =>
    have hc : (k.call S c).own = false ∧ (k.call S c).sent = false := by
      cases c with
      | setArgs vals =>
        rw [Marks.call]
        split_ifs
        · exact ⟨hown, hown⟩
        · exact ⟨hown, hsent⟩
      | setClosure c =>
        cases c with
        | none => exact ⟨hown, hsent⟩
        | some c =>
          rw [Marks.call]
          split_ifs
          · exact ⟨rfl, rfl⟩
          · exact ⟨hown, hsent⟩
          · exact ⟨hown, hsent⟩
      | del => exact ⟨hown, hsent⟩
    exact ih hc.1 hc.2

/-- The three ways a run ends: the task is deleted, the code writes outside of the arguments, or
the first argument is `nil` again. -/
theorem runTask_cases (h : t.Alike u) (hu : u.Fits) {cs : List Call}
    (hplain : ∀ c ∈ cs, c.Plain) :
    (cs.any Call.isDel ∧ ∃ es, runTask S t cs = some (none, es) ∧
      es.foldl replay (some u) = none) ∨
    (cs.any Call.isDel = false ∧ t.closure.params ≠ 0 ∧ (runMarks S t cs).params = 0 ∧
      runTask S t cs = none) ∨
    (cs.any Call.isDel = false ∧ (t.closure.params ≠ 0 → (runMarks S t cs).params ≠ 0) ∧
      (t.closure.params = 0 → (runMarks S t cs).sent = false) ∧
      ∃ t' u' es, runTask S t cs = some (some t', es) ∧
        es.foldl replay (some u) = some u' ∧
        Follows S { runMarks S t cs with own := false } t' u') := by
  have hlen : t.args.length = t.closure.params := (h.fits hu).length
  obtain ⟨t₁, es, hcalls, hrel, hdel⟩ :=
    follows_calls (S := S) (follows_of_alike h hu).enter hplain
  rw [runTask, hcalls, Option.bind_some, hlen]
  generalize hr : es.foldl replay (some u) = r at hrel
  cases hrel with
  | none => exact .inl ⟨hdel.mp rfl, es, rfl, hr⟩
  | @some t' u' hfollows =>
    have hno : cs.any Call.isDel = false := by simpa using hdel
    right
    by_cases h0 : t.closure.params = 0
    · obtain ⟨hown, hsent⟩ : (runMarks S t cs).own = false ∧ (runMarks S t cs).sent = false :=
        marks_clean cs (by simp [h0]) rfl
      refine .inr ⟨hno, fun hne => absurd h0 hne, fun _ => hsent, t', u', es, ?_, hr, ?_⟩
      · simp [leave, h0]
      · rw [← hown]
        exact hfollows
    · by_cases hk : (runMarks S t cs).params = 0
      · refine .inl ⟨hno, h0, hk, ?_⟩
        have hempty : t'.args = [] := length_eq_zero_iff.mp (hfollows.length.trans hk)
        simp [leave, h0, vecSet, hempty]
      · obtain ⟨args, hargs, hleft⟩ := hfollows.leave hk
        refine .inr ⟨hno, fun _ => hk, fun hz => absurd hz h0, _, u', es, ?_, hr, hleft⟩
        simp [leave, h0, hargs]

theorem Task.Alike.symm (h : t.Alike u) : u.Alike t := ⟨h.closure.symm, h.args.symm⟩

def Good (t : Option Task) : Prop := ∀ x, t = some x → x.Fits

theorem good_of_alike {t u : Option Task} (h : Option.Rel Task.Alike t u) (hu : Good u) :
    Good t := by
  cases h with
  | none => exact hu
  | some h =>
    rintro x ⟨⟩
    exact h.fits (hu _ rfl)

/-- A change keeps the arguments, on the node which makes it and on one which replays it. -/
def Keeps (S : Scope) (t u : Option Task) (c : Change) : Prop :=
  ∃ t' es, exec S t c = some (t', es) ∧
    Option.Rel Task.Alike t' (es.foldl replay u) ∧ Good (es.foldl replay u)

theorem Follows.good {k : Marks} (h : Follows S k t u) (hown : k.own = false)
    (hsent : k.sent = false) : t.Alike u ∧ Good (some u) := by
  obtain ⟨halike, hfits⟩ := h.clean hown hsent
  refine ⟨halike, ?_⟩
  rintro x ⟨⟩
  exact halike.symm.fits hfits

theorem createArgs_fits {c : Closure} {vals args : List Val}
    (h : createArgs S c vals = .ok args) : (⟨c, args⟩ : Task).Fits := by
  unfold createArgs at h
  split at h
  · cases h
  · next hcheck =>
    have hvals := checkArgs_none hcheck
    split_ifs at h with h0
    · obtain rfl := Except.ok.inj h
      obtain rfl : vals = [] := hvals.resolve_left (by omega)
      exact ⟨h0.symm, by simp⟩
    · obtain rfl := Except.ok.inj h
      rw [pushNil_eq]
      refine ⟨?_, by simp⟩
      simp only [length_append, length_singleton, length_replicate]
      rcases hvals with hlt | rfl
      · omega
      · simp only [length_nil]
        omega

theorem createArgs_nested {c : Closure} {vals args : List Val} (hvals : nestedVec vals)
    (h : createArgs S c vals = .ok args) : nestedVec args := by
  unfold createArgs at h
  split at h
  · cases h
  · split_ifs at h
    · exact Except.ok.inj h ▸ hvals
    · obtain rfl := Except.ok.inj h
      rw [pushNil_eq]
      exact nestedVec_args rfl hvals _

section

variable {t u : Option Task} (h : Option.Rel Task.Alike t u) (hu : Good u)

include h hu

theorem keeps_create (c : Closure) {vals : List Val} (hplain : nestedVec vals) :
    Keeps S t u (.create c vals) := by
  cases h with
  | some halike => exact ⟨_, [], rfl, .some halike, hu⟩
  | none =>
    cases hc : S.unbound c with
    | some e => exact ⟨none, [], by simp [exec, hc], .none, hu⟩
    | none =>
      cases hargs : createArgs S c vals with
      | error e => exact ⟨none, [], by simp [exec, hc, hargs], .none, hu⟩
      | ok args =>
        obtain ⟨r, hr, hsame⟩ := exists_readArgs (createArgs_nested hplain hargs)
        have halike : (⟨c, args⟩ : Task).Alike ⟨c, r⟩ := ⟨rfl, hsame⟩
        have hreplay : replay none (.new c args) = some ⟨c, r⟩ := by simp [replay, hr]
        refine ⟨some ⟨c, args⟩, [.new c args], by simp [exec, hc, hargs], ?_⟩
        rw [foldl_cons, foldl_nil, hreplay]
        refine ⟨.some halike, ?_⟩
        rintro x ⟨⟩
        exact halike.symm.fits (createArgs_fits hargs)

theorem keeps_query {cs : List Call} (hplain : ∀ c ∈ cs, c.Plain) : Keeps S t u (.query cs) := by
  cases h with
  | none => exact ⟨none, [], calls_none cs, .none, hu⟩
  | @some t u halike =>
    obtain ⟨t', es, hcalls, hrel, -⟩ :=
      follows_calls (S := S) (follows_of_alike halike (hu u rfl)) hplain
    obtain ⟨hown, hsent⟩ :=
      marks_clean (S := S) cs (k := ⟨t.closure.params, false, false⟩) rfl rfl
    refine ⟨t', es, hcalls, ?_⟩
    generalize es.foldl replay (some u) = r at hrel ⊢
    cases hrel with
    | none => exact ⟨.none, by rintro x ⟨⟩⟩
    | some hfollows =>
      obtain ⟨hout, hgood⟩ := hfollows.good hown hsent
      exact ⟨.some hout, hgood⟩

/-- A run keeps the arguments exactly if it is quiet. -/
theorem keeps_run_iff {cs : List Call} (hplain : ∀ c ∈ cs, c.Plain) (done : Bool) :
    Keeps S t u (.run cs done) ↔ (Change.run cs done).Quiet S t := by
  cases h with
  | none => exact iff_of_true ⟨none, [], rfl, .none, hu⟩ (by rintro x ⟨⟩)
  | @some t u halike =>
    rcases runTask_cases (S := S) halike (hu u rfl) hplain with
      ⟨hdel, es, hrun, hout⟩ | ⟨hdel, hne, h0, hrun⟩ |
      ⟨hdel, hne, hsent, t', u', es, hrun, hout, hf⟩
    · -- the task is deleted by the run
      refine iff_of_true ⟨none, es, by simp [exec, hrun], ?_⟩ ?_
      · rw [hout]
        exact ⟨.none, by rintro x ⟨⟩⟩
      · rintro x ⟨⟩ - hno
        rw [hdel] at hno
        cases hno
    · refine iff_of_false ?_ ?_
      · rintro ⟨t', es, hexec, -⟩
        simp [exec, hrun] at hexec
      · intro hq
        exact (hq t rfl hne hdel).1 h0
    · cases done with
      | true =>
        refine iff_of_true ⟨none, es ++ [.del], by simp [exec, hrun], ?_⟩ ?_
        · rw [foldl_append]
          exact ⟨.none, by rintro x ⟨⟩⟩
        · rintro x ⟨⟩ hne' -
          exact ⟨hne hne', fun _ => rfl⟩
      | false =>
        have hexec : exec S (some t) (.run cs false) = some (some t', es) := by simp [exec, hrun]
        cases hs : (runMarks S t cs).sent with
        | false =>
          obtain ⟨halike', hgood⟩ := hf.good rfl hs
          refine iff_of_true ⟨_, es, hexec, ?_⟩ ?_
          · rw [hout]
            exact ⟨.some halike', hgood⟩
          · rintro x ⟨⟩ hne' -
            exact ⟨hne hne', fun hsent' => by rw [hs] at hsent'; cases hsent'⟩
        | true =>
          have hne' : t.closure.params ≠ 0 := fun h0 => by
            rw [hsent h0] at hs
            cases hs
          refine iff_of_false ?_ ?_
          · -- the first argument on the other node is the task
            rintro ⟨t₁, es₁, hexec₁, -, hgood⟩
            obtain ⟨rfl, rfl⟩ := Prod.mk.inj (Option.some.inj (hexec.symm.trans hexec₁))
            rw [hout] at hgood
            have hlen := hf.length_other
            cases hargs : u'.args with
            | nil =>
              rw [hargs] at hlen
              exact hne hne' hlen.symm
            | cons v l =>
              have hv := hf.sent v (by rw [hargs]; rfl)
              have hnil := (hgood u' rfl).first v (by rw [hargs]; rfl)
              rw [hnil] at hv
              simp [firstArg, hs] at hv
          · intro hq
            cases (hq t rfl hne' hdel).2 hs

theorem keeps_iff {c : Change} (hplain : c.Plain) : Keeps S t u c ↔ c.Quiet S t := by
  cases c with
  | create c vals => exact iff_of_true (keeps_create h hu c hplain) trivial
  | query cs => exact iff_of_true (keeps_query h hu hplain) trivial
  | run cs done => exact keeps_run_iff h hu hplain done

end

end Exec

section System

variable {ν : Type} [DecidableEq ν] {S : Scope}

def start : Net ν (Option Task) Emit := ⟨[], fun _ => 0, fun _ => none⟩

def Op.Quiet (S : Scope) (s : Net ν (Option Task) Emit) : Op ν → Prop
  | .exec i c => s.pos i = s.log.length → c.Plain ∧ c.Quiet S (s.copy i)
  | _ => True

omit [DecidableEq ν] in
theorem emits_peek {t t' : Option Task} {es : List Emit}
    (h : exec S t (.run [] false) = some (t', es)) : es = [] := by
  cases t with
  | none =>
    cases h
    rfl
  | some t =>
    simp only [exec, runTask, calls, Option.bind_some, Option.map_map, Option.map_eq_some_iff,
      Function.comp_apply] at h
    obtain ⟨o, -, hres⟩ := h
    cases o <;> exact (Prod.mk.inj hres).2.symm

abbrev Synced : Net ν (Option Task) Emit → Prop :=
  InSync replay (Option.Rel Task.Alike) Good none

theorem synced_step {s : Net ν (Option Task) Emit} (h : Synced s) {op : Op ν} (hq : op.Quiet S s) :
    ∃ s', step S s op = some s' ∧ Synced s' := by
  cases op with
  | replay i => exact ⟨_, rfl, h.replay (fun _ _ e => alike_replay e) i⟩
  | exec i c =>
    rw [step]
    split_ifs with hi
    · obtain ⟨t', es, hexec, -⟩ := (keeps_iff (h.follows i) (h.good _) (hq hi).1).mpr (hq hi).2
      rw [hexec]
      refine ⟨_, rfl, h.commit hi fun r hr hgood => ?_⟩
      obtain ⟨t₁, es₁, hexec₁, hout⟩ := (keeps_iff hr hgood (hq hi).1).mpr (hq hi).2
      obtain ⟨rfl, rfl⟩ := Prod.mk.inj (Option.some.inj (hexec.symm.trans hexec₁))
      exact hout
    · exact ⟨s, rfl, h⟩
  | peek i =>
    rw [step]
    have hplain : (Change.run [] false).Plain := fun _ hc => absurd hc not_mem_nil
    have hquiet : (Change.run [] false).Quiet S (s.copy i) := by
      intro x _ hne _
      exact ⟨hne, fun hsent => by cases hsent⟩
    obtain ⟨t', es, hexec, -⟩ := (keeps_iff (h.follows i) (h.good _) hplain).mpr hquiet
    rw [hexec]
    refine ⟨_, rfl, h.touch fun r hr hgood => ?_⟩
    obtain ⟨t₁, es₁, hexec₁, hout, -⟩ := (keeps_iff hr hgood hplain).mpr hquiet
    obtain ⟨rfl, rfl⟩ := Prod.mk.inj (Option.some.inj (hexec.symm.trans hexec₁))
    rw [emits_peek hexec] at hout
    exact hout

omit [DecidableEq ν] in
theorem alike_of_common {t u r : Option Task} (ht : Option.Rel Task.Alike t r)
    (hu : Option.Rel Task.Alike u r) : Option.Rel Task.Alike t u := by
  cases ht with
  | none =>
    cases hu
    exact .none
  | some ht =>
    cases hu with
    | some hu => exact .some ⟨ht.closure.trans hu.closure.symm, ht.args.trans hu.args.symm⟩

/-- If all runs are quiet and all values plain, then the arguments fit the closure on every node
after each step, they are the same on all nodes which have seen the same changes, and no run writes
outside of them. A change which is not quiet breaks this at once. -/
theorem args_fit_of_quiet (ops : List (Op ν))
    (h : Transition.Along (step S) (fun s op => op.Quiet S s) start ops) :
    ∃ s, Transition.run (step S) start ops = some s ∧
      (∀ i t, s.copy i = some t → t.Fits) ∧
      (∀ i j, s.pos i = s.pos j → Option.Rel Task.Alike (s.copy i) (s.copy j)) ∧
      ∀ i j (c : Change), c.Plain → s.pos i = s.log.length → s.pos j = s.log.length →
        (Keeps S (s.copy i) (s.copy j) c ↔ c.Quiet S (s.copy i)) := by
  have hstart : Synced (start (ν := ν)) := inSync_start .none (by rintro x ⟨⟩)
  obtain ⟨s, hrun, hs⟩ :=
    Transition.run_total_along (fun s op hs hq => synced_step hs hq) hstart h
  have hgood : ∀ i, Good (s.copy i) := fun i => good_of_alike (hs.follows i) (hs.good _)
  have halike : ∀ i j, s.pos i = s.pos j → Option.Rel Task.Alike (s.copy i) (s.copy j) := by
    intro i j hpos
    obtain ⟨r, -, hi, hj⟩ := hs.agree hpos
    exact alike_of_common hi hj
  refine ⟨s, hrun, hgood, halike, ?_⟩
  intro i j c hplain hi hj
  exact keeps_iff (halike i j (hi.trans hj.symm)) (hgood j) hplain

end System

def exampleScope : Scope := ⟨default, fun _ => none, false, fun _ => none, 1⟩

/-- Create a task with the closure `|t, x| ...` and the argument 0, on two nodes. -/
def createOps : List (Op Bool) := [.exec false (.create ⟨[], 2⟩ [.int 0]), .replay true]

/-- A running task which calls `set_args` is sent as its own first argument; one which sets a
closure without parameters writes to an empty list. A set of `values()` is not read by the other
node, which keeps its arguments. -/
theorem running_task_breaks_args :
    (∃ s t, Transition.run (step exampleScope) start
        (createOps ++ [.exec false (.run [.setArgs [.int 1]] false), .replay true]) = some s ∧
      s.copy true = some t ∧ t.args = [.task 1, .int 1] ∧ ¬ t.Fits) ∧
    Transition.run (step exampleScope) start
      (createOps ++ [.exec false (.run [.setClosure (some ⟨[], 0⟩)] false)]) = none ∧
    ∃ s, Transition.run (step exampleScope) start
        (createOps ++ [.exec false (.query [.setArgs [.set .empty]]), .replay true]) = some s ∧
      (s.copy false).map Task.args = some [.nil, .set .empty] ∧
        (s.copy true).map Task.args = some [.nil, .int 0] := by
  refine ⟨⟨_, _, rfl, rfl, rfl, ?_⟩, rfl, _, rfl, rfl, rfl⟩
  intro hfits
  cases hfits.first (.task 1) rfl

def quietOps : List (Op Bool) :=
  createOps ++ [.exec true (.query [.setArgs [.int 1]]), .replay false, .exec false (.run [] false),
    .replay true]

theorem args_fit_of_other_query :
    ∃ s, Transition.run (step exampleScope) start quietOps = some s ∧
      ∀ i t, s.copy i = some t → t.Fits := by
  have hquiet : Transition.Along (step exampleScope) (fun s op => op.Quiet exampleScope s) start
      quietOps := by
    refine ⟨fun _ => ⟨rfl, trivial⟩, ?_⟩
    rintro _ ⟨⟩
    refine ⟨trivial, ?_⟩
    rintro _ ⟨⟩
    refine ⟨fun _ => ⟨fun _ hc => mem_singleton.mp hc ▸ rfl, trivial⟩, ?_⟩
    rintro _ ⟨⟩
    refine ⟨trivial, ?_⟩
    rintro _ ⟨⟩
    refine ⟨fun _ => ⟨fun _ hc => absurd hc not_mem_nil, fun x _ hne _ => ⟨hne, nofun⟩⟩, ?_⟩
    rintro _ ⟨⟩
    exact ⟨trivial, fun _ _ => trivial⟩
  obtain ⟨s, hrun, hfits, -⟩ := args_fit_of_quiet quietOps hquiet
  exact ⟨s, hrun, hfits⟩

end ThingsDB.Tasks.Args
