import ThingsDB.Changes.Queue

/-!
# The change loop

One pass of `changes__loop` leaves, drops the first change or executes it. On an
ordered queue no pass fails an assertion, and the executions of a whole loop
form a timeline: each one starts at or after the committed id which the one
before has left.
-/

namespace ThingsDB.Changes

open List

/-- What an execution has to look like: the change is the lowest queued one above
the committed id, and its own id is committed. -/
structure Exec.Proper (e : Exec) : Prop where
  queued : e.change ∈ e.queue
  above : e.ccid < e.change.id
  lowest : ∀ c ∈ e.queue, e.ccid < c.id → e.change.id ≤ c.id
  commits : e.ccidAfter = e.change.id

/-- The executions between the committed ids `a` and `b`. -/
def Timeline (a : ℕ) : List Exec → ℕ → Prop
  | [], b => a ≤ b
  | e :: es, b => a ≤ e.ccid ∧ e.Proper ∧ Timeline e.ccidAfter es b

variable {s : Node} {es : List Exec} {cs : List Change} {c : Change}

theorem Timeline.start_le {a a' b : ℕ} (h : Timeline a es b) (hle : a' ≤ a) : Timeline a' es b := by
  cases es with
  | nil => exact hle.trans h
  | cons e es => exact ⟨hle.trans h.1, h.2⟩

theorem Timeline.append {a b c : ℕ} {fs : List Exec} (h : Timeline a es b)
    (h' : Timeline b fs c) : Timeline a (es ++ fs) c := by
  induction es generalizing a with
  | nil => exact h'.start_le h
  | cons e es ih => exact ⟨h.1, h.2.1, ih h.2.2⟩

theorem Timeline.proper {a b : ℕ} (h : Timeline a es b) : ∀ e ∈ es, a < e.change.id ∧ e.Proper := by
  induction es generalizing a with
  | nil => simp
  | cons e es ih =>
    obtain ⟨hle, hp, hrest⟩ := h
    have ha : a < e.change.id := hle.trans_lt hp.above
    intro f hf
    rcases mem_cons.mp hf with rfl | hf
    · exact ⟨ha, hp⟩
    · obtain ⟨hlt, hpf⟩ := ih hrest f hf
      exact ⟨ha.trans (hp.commits ▸ hlt), hpf⟩

/-- Along a timeline the executed ids strictly increase. -/
theorem Timeline.increasing {a b : ℕ} (h : Timeline a es b) :
    (es.map fun e => e.change.id).Pairwise (· < ·) := by
  induction es generalizing a with
  | nil => exact List.Pairwise.nil
  | cons e es ih =>
    obtain ⟨-, hp, hrest⟩ := h
    refine pairwise_cons.mpr ⟨?_, ih hrest⟩
    intro x hx
    obtain ⟨f, hf, rfl⟩ := mem_map.mp hx
    have hlt := (hrest.proper f hf).1
    rwa [hp.commits] at hlt

namespace Node

/-- What the loop may do to the administration. -/
structure Advances (s s' : Node) : Prop where
  uid : s'.nextUid = s.nextUid
  next : s'.nextChangeId = s.nextChangeId
  skipped : s'.skippedIds = s.skippedIds
  ccid : s.ccid ≤ s'.ccid
  queue : s'.queue.Sublist s.queue

theorem Advances.refl (s : Node) : s.Advances s :=
  ⟨rfl, rfl, rfl, le_rfl, List.Sublist.refl _⟩

theorem Advances.trans {t u : Node} (h : s.Advances t) (h' : t.Advances u) : s.Advances u :=
  ⟨h'.uid.trans h.uid, h'.next.trans h.next, h'.skipped.trans h.skipped, h.ccid.trans h'.ccid,
    h'.queue.trans h.queue⟩

def Pass.Good (s : Node) : Pass → Prop
  | .leave s' => s'.Ordered ∧ s.Advances s'
  | .drop s' => s'.Ordered ∧ s.Advances s'
  | .exec s' e => s'.Ordered ∧ s.Advances s' ∧ s.ccid ≤ e.ccid ∧ e.Proper ∧ s'.ccid = e.ccidAfter
  | .abort => False

theorem Pass.Good.of_advances {t : Node} {p : Pass} (hadv : s.Advances t) (h : p.Good t) :
    p.Good s := by
  cases p with
  | leave s' => exact ⟨h.1, hadv.trans h.2⟩
  | drop s' => exact ⟨h.1, hadv.trans h.2⟩
  | exec s' e => exact ⟨h.1, hadv.trans h.2.1, hadv.ccid.trans h.2.2.1, h.2.2.2⟩
  | abort => exact h

theorem Ordered.shift_good (h : s.Ordered) : (Pass.drop s.shift).Good s :=
  ⟨h.shift, rfl, rfl, rfl, le_rfl, tail_sublist s.queue⟩

theorem process_good (h : s.Ordered) (hq : s.queue = c :: cs) (habove : s.ccid < c.id)
    (hready : c.status = .ready) : (process s c).Good s := by
  have hmem : c ∈ s.queue := hq ▸ mem_cons_self
  rw [process, if_pos hready]
  refine ⟨?_, ⟨rfl, rfl, rfl, habove.le, tail_sublist s.queue⟩, le_rfl,
    ⟨hmem, habove, ?_, rfl⟩, rfl⟩
  · exact (h.raise le_rfl le_rfl (h.below c hmem)).shift
  · intro d hd _
    rw [hq] at hd
    rcases mem_cons.mp hd with rfl | hd
    · exact le_rfl
    · exact ((pairwise_cons.mp (hq ▸ h.sorted)).1 d hd).le

theorem processNew_good (w : Clock) (h : s.Ordered)
    (hq : s.queue = c :: cs) (habove : s.ccid < c.id) : (processNew w s c).Good s := by
  have hmem : c ∈ s.queue := hq ▸ mem_cons_self
  unfold processNew
  split_ifs with hnew htime
  · exact ⟨h, Advances.refl s⟩
  · exact h.shift_good
  · refine process_good h hq habove ?_
    have halive := h.alive c hmem
    cases hst : c.status with
    | new => exact absurd hst hnew
    | cancel => exact absurd hst halive
    | ready => rfl

/-- On an ordered queue a pass never fails an assertion. -/
theorem pass_good (w : Clock) (h : s.Ordered) : (pass w s).Good s := by
  unfold pass
  split
  next => exact ⟨h, Advances.refl s⟩
  next c cs hq =>
    have hmem : c ∈ s.queue := hq ▸ mem_cons_self
    have hbelow := h.below c hmem
    have hbump : s.ccid + 1 < c.id →
        Ordered { s with ccid := s.ccid + 1 } ∧ s.Advances { s with ccid := s.ccid + 1 } :=
      fun hgap => ⟨h.raise le_rfl le_rfl (hgap.trans hbelow), rfl, rfl, rfl, Nat.le_succ _,
        List.Sublist.refl _⟩
    split_ifs with hcancel hold hgap hallow hsync hwait htime hfar
    · exact h.alive c hmem hcancel
    · exact h.shift_good
    · exact process_good h hq (by omega) (h.cpkgReady c hmem hallow.1)
    · exact ⟨h, Advances.refl s⟩
    · exact ⟨⟨h.sorted, h.distinct, h.allocated, h.below, h.committed, h.alive, h.cpkgReady⟩,
        rfl, rfl, rfl, le_rfl, List.Sublist.refl _⟩
    · exact ⟨h, Advances.refl s⟩
    · exact hbump hgap
    · obtain ⟨ho, hadv⟩ := hbump hgap
      exact (processNew_good w ho hq hgap).of_advances hadv
    · exact processNew_good w h hq (by omega)

/-- A whole loop never fails an assertion, and its executions form a timeline. -/
theorem loop_good (w : Clock) (n : ℕ) (h : s.Ordered) :
    ∃ s' es, loop w n s = some (s', es) ∧ s'.Ordered ∧ s.Advances s' ∧
      Timeline s.ccid es s'.ccid := by
  induction n generalizing s with
  | zero => exact ⟨s, [], rfl, h, Advances.refl s, le_rfl⟩
  | succ n ih =>
    have hgood := pass_good w h
    unfold loop
    cases hp : pass w s with
    | leave t =>
      rw [hp] at hgood
      exact ⟨t, [], rfl, hgood.1, hgood.2, hgood.2.ccid⟩
    | drop t =>
      rw [hp] at hgood
      obtain ⟨s', es, heq, ho, hadv, htl⟩ := ih hgood.1
      exact ⟨s', es, heq, ho, hgood.2.trans hadv, htl.start_le hgood.2.ccid⟩
    | exec t e =>
      rw [hp] at hgood
      obtain ⟨ht, hst, hle, hproper, hccid⟩ := hgood
      obtain ⟨s', es, heq, ho, hadv, htl⟩ := ih ht
      refine ⟨s', e :: es, ?_, ho, hst.trans hadv, hle, hproper, hccid ▸ htl⟩
      simp [heq]
    | abort =>
      rw [hp] at hgood
      exact hgood.elim

end Node
end ThingsDB.Changes
