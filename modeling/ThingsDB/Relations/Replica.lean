import ThingsDB.Relations.Symmetric

/-!
# Replicas of related sets

The tasks of `add`, `remove`, `clear`, assignments and in-place operators as `ctask`
applies them on another node, compared with what the call has done on this one.
-/

namespace ThingsDB.Relations

open Util Schema List

variable {φ τ : Type} [DecidableEq φ]

namespace Schema

variable [DecidableEq τ] (S : Schema φ τ) (T : Things τ)

def ctaskSetAdd (f : φ) (p : ℕ) : List ℕ → Store φ → Option (Store φ)
  | [], s => some s
  | t :: ts, s =>
    match S.addArg T f p (.ok (.thing t)) with
    | .error _ => none
    | .ok t => ctaskSetAdd f p ts (S.vsetAdd s f p t).2

/-- `ctask__set_remove`, where a missing thing is an error in the log only. -/
def ctaskSetRemove (f : φ) (p : ℕ) : List ℕ → Store φ → Store φ
  | [], s => s
  | t :: ts, s =>
    if t ∈ s f p then
      let s := s.set f p ((s f p).pop t)
      ctaskSetRemove f p ts
        (match S.rel f with
          | none => s
          | some g => S.delCb s g t p)
    else ctaskSetRemove f p ts s

/-- `ctask__set`, where the value is read as a set without a specification. -/
def ctaskSet (f : φ) (p : ℕ) (m : Imap) (s : Store φ) : Option (Store φ) :=
  let v : Val τ :=
    if S.isSet f then .set none m
    else
      match m.things with
      | [] => .nil
      | t :: _ => .thing t
  match S.makeAssignable T s f p v with
  | .error _ => none
  | .ok (s, m) => some (s.set f p m)

def ctaskRun (s : Store φ) : Task φ → Option (Store φ)
  | .setAdd p f ts => S.ctaskSetAdd T f p ts s
  | .setRemove p f ts => some (S.ctaskSetRemove f p ts s)
  | .setClear p f => some (S.vsetClear s p f)
  | .set p f m => S.ctaskSet T f p m s

def replay (s : Store φ) (tasks : List (Task φ)) : Option (Store φ) :=
  tasks.foldlM (S.ctaskRun T) s

end Schema

def Same (s s' : Store φ) : Prop := ∀ f a x, x ∈ s f a ↔ x ∈ s' f a

/-- Things only are in sets which they are allowed in. -/
def WellTyped (S : Schema φ τ) (T : Things τ) (s : Store φ) : Prop :=
  ∀ f a, ∀ t ∈ s f a, S.target f = none ∨ S.target f = some (T.typeOf t)

/-- A call on, or an assignment to, a set of a stored thing. A set which is assigned only
has things of its own specification. -/
def SetCall (S : Schema φ τ) (T : Things τ) : Op φ τ → Prop
  | .assign p f v => S.isSet f = true ∧ T.stored p = true ∧
    ∀ type m, v = .set (some type) m → ∀ t ∈ m, T.typeOf t = type
  | .add p f _ | .remove p f _ | .removeIf p f _ _ | .clear p f | .inplace p f _ _ =>
    S.isSet f = true ∧ T.stored p = true
  | _ => False

variable {S : Schema φ τ} {T : Things τ} {s : Store φ} {f g : φ} {p t : ℕ} {m : Imap}
variable {a x : ℕ} {k : φ} {ts : List ℕ} {o : Outcome φ}

section Add

theorem head?_eq_some {m : Imap} (hone : ∀ x ∈ m, ∀ y ∈ m, x = y) {o : ℕ} :
    m.things.head? = some o ↔ o ∈ m := by
  constructor
  · exact mem_of_head?
  · intro ho
    cases h : m.things.head? with
    | none => exact absurd ho (head?_eq_none h o)
    | some y => rw [hone o ho y (mem_of_head? h)]

section

variable (hset : ∀ g, S.rel f = some g → S.isSet g)

include hset

theorem mem_vsetAdd_of_set : x ∈ (S.vsetAdd s f p t).2 k a ↔
    x ∈ s k a ∨ (k = f ∧ a = p ∧ x = t) ∨ (S.rel f = some k ∧ a = t ∧ x = p) := by
  simp only [vsetAdd, addRelation]
  cases hrel : S.rel f with
  | none =>
    simp only [mem_set, Imap.mem_add]
    grind
  | some g =>
    simp only
    split_ifs with hself
    · simp only [mem_set, Imap.mem_add]
      grind
    · rw [Schema.link_of_set (hset g hrel)]
      simp only [mem_set, Imap.mem_add]
      grind

/-- All things of the call are related afterwards, whatever the order. -/
theorem mem_addAll_of_set (ts : List ℕ) : ∀ (s : Store φ) (added : List ℕ),
      (x ∈ (addAll S f p ts s added).1 k a ↔
        x ∈ s k a ∨ (k = f ∧ a = p ∧ x ∈ ts) ∨ (S.rel f = some k ∧ a ∈ ts ∧ x = p)) := by
  induction ts with
  | nil => simp [addAll]
  | cons t ts ih =>
    intro s added
    rw [addAll, ih, mem_vsetAdd_of_set hset, mem_cons, mem_cons]
    grind

theorem mem_added_of_set (ts : List ℕ) : ∀ (s : Store φ) (added : List ℕ),
      (x ∈ (addAll S f p ts s added).2 ↔ x ∈ added ∨ x ∈ ts ∧ x ∉ s f p) := by
  induction ts with
  | nil => simp [addAll]
  | cons t ts ih =>
    intro s added
    have hslot : S.addRelation s f p t f p = s f p := by
      unfold addRelation
      cases hrel : S.rel f with
      | none => rfl
      | some g =>
        simp only
        split_ifs with hself
        · rfl
        · rw [Schema.link_of_set (hset g hrel), Store.set_of_ne _ _ (by grind)]
    have hnew : (S.vsetAdd s f p t).1 = decide (t ∉ s f p) := by
      simp only [vsetAdd, hslot]
    rw [addAll, ih, mem_vsetAdd_of_set hset, hnew, mem_cons]
    grind

end

section

variable (hrel : S.rel f = some g)

include hrel

theorem mem_vsetAdd_of_type (hf : S.isSet f) (hg : S.isSet g = false) (hone : Single s g) :
    x ∈ (S.vsetAdd s f p t).2 k a ↔
      (k = g ∧ a = t ∧ x = p) ∨ (k = f ∧ a = p ∧ x = t) ∨
        (¬(k = g ∧ a = t) ∧ x ∈ s k a ∧ ¬(k = f ∧ x = t ∧ a ∈ s g t)) := by
  have hne : g ≠ f := by
    rintro rfl
    simp [hf] at hg
  simp only [vsetAdd, addRelation, hrel, hg, Bool.false_eq_true, false_and, if_false, mem_set,
    Imap.mem_add, mem_link_of_type hg (fun _ => hne) hrel, hf, forall_const, head?_eq_some (hone t)]
  grind

theorem Single.vsetAdd (hf : S.isSet f)
    (hg : S.isSet g = false) (hone : Single s g) : Single (S.vsetAdd s f p t).2 g := by
  have hne : g ≠ f := by
    rintro rfl
    simp [hf] at hg
  intro a x hx y hy
  rw [mem_vsetAdd_of_type hrel hf hg hone] at hx hy
  have := hone a x
  grind

theorem mem_addAll_of_type (hf : S.isSet f) (hg : S.isSet g = false) (ts : List ℕ) :
    ∀ (s : Store φ) (added : List ℕ), Single s g →
      (x ∈ (addAll S f p ts s added).1 k a ↔
        (k = g ∧ a ∈ ts ∧ x = p) ∨ (k = f ∧ a = p ∧ x ∈ ts) ∨
          (¬(k = g ∧ a ∈ ts) ∧ x ∈ s k a ∧ ¬(k = f ∧ x ∈ ts ∧ a ∈ s g x))) := by
  have hne : g ≠ f := by
    rintro rfl
    simp [hf] at hg
  induction ts with
  | nil => simp [addAll]
  | cons t ts ih =>
    intro s added hone
    rw [addAll, ih _ _ (hone.vsetAdd hrel hf hg), mem_vsetAdd_of_type hrel hf hg hone,
      mem_vsetAdd_of_type hrel hf hg hone, mem_cons, mem_cons]
    grind

/-- A thing is new as well when it is taken from the same set first, and so it is the
second time that it is added. -/
theorem mem_added_of_type (hf : S.isSet f) (hg : S.isSet g = false) (ts : List ℕ) :
    ∀ (s : Store φ) (added : List ℕ), Single s g →
      (x ∈ (addAll S f p ts s added).2 ↔
        x ∈ added ∨ x ∈ ts ∧ (x ∉ s f p ∨ p ∈ s g x ∨ 2 ≤ ts.count x)) := by
  have hne : g ≠ f := by
    rintro rfl
    simp [hf] at hg
  induction ts with
  | nil => simp [addAll]
  | cons t ts ih =>
    intro s added hone
    have hnew : (S.vsetAdd s f p t).1 = decide (t ∉ s f p ∨ p ∈ s g t) := by
      simp only [vsetAdd, addRelation, hrel, hg, Bool.false_eq_true, false_and, if_false,
        mem_link_of_type hg (fun _ => hne) hrel, head?_eq_some (hone t), hf]
      grind
    have hcount : x ∈ ts ↔ 1 ≤ ts.count x := one_le_count_iff.symm
    rw [addAll, ih _ _ (hone.vsetAdd hrel hf hg), mem_vsetAdd_of_type hrel hf hg hone,
      mem_vsetAdd_of_type hrel hf hg hone, hnew, mem_cons, count_cons]
    grind

end

/-- The condition for a call of `add` with the things `ts`, which all pass their checks.
A thing in the set already is not sent, so that it must be related on both sides. -/
def AddSent (S : Schema φ τ) (s : Store φ) (f : φ) (p : ℕ) (ts : List ℕ) : Prop :=
  ∀ g, S.rel f = some g → ∀ t ∈ ts, t ∈ s f p →
    (g = f ∧ t = p) ∨ p ∈ s g t ∨ (S.isSet g = false ∧ 2 ≤ ts.count t)

omit [DecidableEq φ] in
theorem rel_type_or_set (S : Schema φ τ) (f : φ) :
    (∀ g, S.rel f = some g → S.isSet g) ∨ ∃ g, S.rel f = some g ∧ S.isSet g = false := by
  by_contra! h
  obtain ⟨⟨g, hrel, hg⟩, hno⟩ := h
  exact hg (by simpa using hno g hrel)

theorem same_addAll_iff (hf : S.isSet f) (hone : ∀ g, S.isSet g = false → Single s g)
    (ts : List ℕ) :
    Same (addAll S f p ts s []).1 (addAll S f p (addAll S f p ts s []).2 s []).1 ↔
      AddSent S s f p ts := by
  unfold AddSent Same
  rcases rel_type_or_set S f with hset | ⟨g, hrel, hg⟩
  · simp only [mem_addAll_of_set hset, mem_added_of_set hset]
    constructor
    · intro h g hg t ht hts
      have := h g t p
      grind
    · intro h k a x
      have := h k
      grind
  · have hone := hone g hg
    have hne : g ≠ f := by
      rintro rfl
      simp [hf] at hg
    simp only [hrel, Option.some.injEq, forall_eq', mem_addAll_of_type hrel hf hg _ _ _ hone,
      mem_added_of_type hrel hf hg _ _ _ hone]
    constructor
    · intro h t ht hts
      have := h g t p
      grind
    · intro h k a x
      have hone := hone a p
      have := h a
      have := h x
      grind

/-- The condition for a call of `add` which fails after the things `ts`. -/
def AddUndone (S : Schema φ τ) (s : Store φ) (f : φ) (p : ℕ) (ts : List ℕ) : Prop :=
  ∀ g, S.rel f = some g → ∀ t ∈ ts,
    if S.isSet g then (g = f ∧ t = p) ∨ p ∈ s g t else p ∈ s g t ∧ t ∉ s f p

theorem same_undo_iff (hf : S.isSet f) (hone : ∀ g, S.isSet g = false → Single s g)
    (hm : ∀ x, x ∈ m ↔
      x ∈ (addAll S f p ts s []).1 f p ∧ x ∉ (addAll S f p ts s []).2) :
    Same ((addAll S f p ts s []).1.set f p m) s ↔ AddUndone S s f p ts := by
  unfold AddUndone Same
  simp only [mem_set, hm]
  rcases rel_type_or_set S f with hset | ⟨g, hrel, hg⟩
  · simp only [mem_addAll_of_set hset, mem_added_of_set hset]
    constructor
    · intro h g hg t ht
      have := h g t p
      grind
    · intro h k a x
      have := h k
      grind
  · have hone := hone g hg
    have hne : g ≠ f := by
      rintro rfl
      simp [hf] at hg
    simp only [hrel, Option.some.injEq, forall_eq', hg, mem_addAll_of_type hrel hf hg _ _ _ hone,
      mem_added_of_type hrel hf hg _ _ _ hone, Bool.false_eq_true, if_false]
    constructor
    · intro h t ht
      have := h g t p
      have := h f p t
      grind
    · intro h k a x
      have hownerA := hone a p
      have hownerX := hone x p
      have := h a
      have := h x
      grind

variable [DecidableEq τ]

omit [DecidableEq φ] in
theorem addArg_thing {arg : Except Ex (Val τ)} (h : S.addArg T f p arg = .ok t) :
    S.addArg T f p (.ok (.thing t)) = .ok t := by
  unfold addArg at h
  split at h
  · cases h
  · split_ifs at h with h₁ h₂ h₃
    · cases h
      simp [addArg, h₁]
    · cases h
      simp only [addArg, h₁, h₂, h₃, if_false]
  · cases h

theorem addArg_of_mem_splitArgs (args : List (Arg φ τ)) : ∀ s : Store φ,
    ∀ t ∈ (splitArgs S T f p args s).1, S.addArg T f p (.ok (.thing t)) = .ok t := by
  induction args with
  | nil => simp [splitArgs]
  | cons arg args ih =>
    intro s t ht
    simp only [splitArgs] at ht
    cases harg : S.addArg T f p (arg s).2 with
    | error e => simp [harg] at ht
    | ok t' =>
      simp only [harg, mem_cons] at ht
      rcases ht with rfl | ht
      · exact addArg_thing harg
      · exact ih _ t ht

omit [DecidableEq τ] in
theorem mem_of_mem_added (ts : List ℕ) : ∀ (s : Store φ) (added : List ℕ),
    x ∈ (addAll S f p ts s added).2 → x ∈ added ∨ x ∈ ts := by
  induction ts with
  | nil => exact fun _ _ hx => Or.inl hx
  | cons t ts ih =>
    intro s added hx
    have := ih _ _ hx
    split_ifs at this
    · rw [mem_append, mem_singleton] at this
      rw [mem_cons]
      tauto
    · rw [mem_cons]
      tauto

theorem ctaskSetAdd_eq (ts : List ℕ) : ∀ (s : Store φ) (added : List ℕ),
    (∀ t ∈ ts, S.addArg T f p (.ok (.thing t)) = .ok t) →
      S.ctaskSetAdd T f p ts s = some (addAll S f p ts s added).1 := by
  induction ts with
  | nil => exact fun _ _ _ => rfl
  | cons t ts ih =>
    intro s added h
    simp only [ctaskSetAdd, h t mem_cons_self, addAll]
    exact ih _ _ (fun x hx => h x (mem_cons_of_mem t hx))

/-- A call of `add` gives the same on a replica when what it does is sent or undone. -/
def AddReplayed (S : Schema φ τ) (T : Things τ) (s : Store φ) (f : φ) (p : ℕ)
    (args : List (Arg φ τ)) : Prop :=
  match splitArgs S T f p args s with
  | (ts, none) => AddSent S s f p ts
  | (ts, some _) => AddUndone S s f p ts

theorem add_replay_iff {args : List (Arg φ τ)} (hf : S.isSet f) (hp : T.stored p)
    (hone : ∀ g, S.isSet g = false → Single s g) (hpure : PureArgs args)
    (ho : S.add T s p f args = some o) :
    (∃ r, S.replay T s o.tasks = some r ∧ Same o.store r) ↔ AddReplayed S T s f p args := by
  have hargs := addArg_of_mem_splitArgs (S := S) (T := T) (f := f) (p := p) args s
  rcases add_cases hpure ho with ⟨rfl, hs, htasks⟩ | ⟨he, hs, htasks⟩ | ⟨he, htasks, -, m, hs, hm⟩
  · rw [hs, htasks]
    simp [replay, Same, AddReplayed, splitArgs, AddSent]
  · rcases hsplit : splitArgs S T f p args s with ⟨ts, e⟩
    simp only [hsplit] at hargs he hs htasks
    subst he
    simp only [AddReplayed, hsplit]
    rw [← same_addAll_iff hf hone ts, hs, htasks]
    set added := (addAll S f p ts s []).2 with hadded
    have hcheck : ∀ t ∈ added, S.addArg T f p (.ok (.thing t)) = .ok t := by
      intro t ht
      rcases mem_of_mem_added _ _ _ ht with ht | ht
      · simp at ht
      · exact hargs t ht
    have hreplay : S.replay T s (if added ≠ [] ∧ T.stored p = true then
        [Task.setAdd p f added] else []) = some (addAll S f p added s []).1 := by
      by_cases hnil : added = []
      · simp [hnil, replay, addAll]
      · simp [hnil, hp, replay, ctaskRun, ctaskSetAdd_eq added s [] hcheck]
    rw [hreplay]
    simp
  · rcases hsplit : splitArgs S T f p args s with ⟨ts, e⟩
    simp only [hsplit] at he hs hm
    cases e with
    | none => simp at he
    | some e =>
      simp only [AddReplayed, hsplit]
      rw [← same_undo_iff hf hone hm, hs, htasks]
      simp [replay]

end Add

section Remove

theorem mem_ctaskSetRemove (hf : S.isSet f) (ts : List ℕ) :
    ∀ s : Store φ, (x ∈ S.ctaskSetRemove f p ts s k a ↔
      x ∈ s k a ∧ ¬(k = f ∧ a = p ∧ x ∈ ts) ∧
        ¬(S.rel f = some k ∧ a ∈ ts ∧ a ∈ s f p ∧
          (S.isSet k → x = p ∧ ¬(S.rel k = some k ∧ a = p)))) := by
  induction ts with
  | nil => simp [ctaskSetRemove]
  | cons t ts ih =>
    intro s
    rw [ctaskSetRemove]
    by_cases ht : t ∈ s f p
    · rw [if_pos ht, ih]
      cases hrel : S.rel f with
      | none =>
        simp only [mem_set, Imap.mem_pop, mem_cons]
        grind
      | some g =>
        have hgf := S.rel_involutive f g hrel
        have hdel : ∀ s : Store φ, S.delCb s g t p = S.unlinkAll g p [t] s := fun _ => rfl
        have hne : S.isSet g = false → g ≠ f := by
          rintro hg rfl
          simp [hf] at hg
        simp only [hdel, mem_unlinkAll, mem_set, Imap.mem_pop, mem_cons, not_mem_nil,
          or_false, Option.some.injEq, hgf]
        cases hg : S.isSet g with
        | true => grind
        | false => grind
    · rw [if_neg ht, ih, mem_cons, mem_cons]
      grind

theorem same_removeDone (hf : S.isSet f) (hts : ∀ t ∈ ts, t ∈ s f p) :
    Same (S.removeDone T (ts.foldl (fun s t => s.set f p ((s f p).pop t)) s) p f ts).store
      (S.ctaskSetRemove f p ts s) := by
  intro k a x
  rw [mem_ctaskSetRemove hf]
  have := hts a
  cases hrel : S.rel f with
  | none =>
    simp only [removeDone, hrel, mem_pops, reduceCtorEq]
    grind
  | some g =>
    simp only [removeDone, hrel, mem_unlinkAll, mem_pops, Option.some.injEq]
    grind

theorem removeDone_replay (hf : S.isSet f) (hp : T.stored p)
    (hts : ∀ t ∈ ts, t ∈ s f p) (ho : o = S.removeDone T
      (ts.foldl (fun s t => s.set f p ((s f p).pop t)) s) p f ts) [DecidableEq τ] :
    ∃ r, S.replay T s o.tasks = some r ∧ Same o.store r := by
  refine ⟨S.ctaskSetRemove f p ts s, ?_, ?_⟩
  · rw [ho]
    cases ts with
    | nil => simp [removeDone, replay, ctaskSetRemove]
    | cons t ts => simp [removeDone, hp, replay, ctaskRun]
  · rw [ho]
    exact same_removeDone hf hts

end Remove

section Set

variable [DecidableEq τ]

omit [DecidableEq φ] in
theorem setCheck_eq_none (hp : T.stored p) (htype : ∀ t ∈ m, S.target f = some (T.typeOf t))
    (b : Bool) : S.setCheck T f p m b = none := by
  have hno : ¬∃ t ∈ m.things, some (T.typeOf t) ≠ S.target f := by
    rintro ⟨t, ht, hne⟩
    exact hne (htype t ht).symm
  simp [setCheck, hp, hno]

section

variable (hf : S.isSet f) (hp : T.stored p)

include hf hp

section

variable (htype : ∀ t ∈ m, S.target f = none ∨ S.target f = some (T.typeOf t))

include htype

/-- A set of things which are allowed in it is assigned on the replica too. -/
theorem ctaskSet_eq (s : Store φ) : S.ctaskSet T f p m s = some ((S.relate s f p m).set f p m) := by
  have hcheck : S.vsetAssignCheck T f p none m = none := by
    unfold vsetAssignCheck
    split_ifs with h
    · rfl
    · rw [not_or] at h
      apply setCheck_eq_none hp
      intro t ht
      exact (htype t ht).resolve_left h.1
  simp [ctaskSet, hf, makeAssignable, hcheck]

theorem set_replay :
    ∃ r, S.replay T s [.set p f m] = some r ∧ Same ((S.relate s f p m).set f p m) r := by
  refine ⟨_, ?_, fun _ _ _ => Iff.rfl⟩
  simp [replay, ctaskRun, ctaskSet_eq hf hp htype]

end

theorem nameAssign_replay {v : Val τ}
    (hv : ∀ type m, v = .set (some type) m → ∀ t ∈ m, T.typeOf t = type) :
    ∃ r, S.replay T s (S.nameAssign T s p f v).tasks = some r ∧
      Same (S.nameAssign T s p f v).store r := by
  unfold nameAssign
  cases ha : S.makeAssignable T s f p v with
  | error e => exact ⟨s, rfl, fun _ _ _ => Iff.rfl⟩
  | ok r =>
    obtain ⟨s', m⟩ := r
    cases makeAssignable_ok ha with
    | set spec m hf =>
      simp only [hp, if_true]
      apply set_replay hf hp
      intro t ht
      rcases typed_of_makeAssignable ha ht with hnone | ⟨spec', hv', hspec⟩ | htype
      · exact Or.inl hnone
      · obtain rfl : spec = spec' := by simpa using hv'
        cases spec with
        | none => exact Or.inl hspec
        | some type =>
          rw [hspec, hv type m rfl t ht]
          exact Or.inr rfl
      · exact Or.inr htype
    | plainNil hf' | plainThing _ hf' | nil _ hf' | thing _ _ hf' => simp [hf] at hf'

theorem inplace_replay (hs : WellTyped S T s) (op : SetOp) (b : Imap) :
    ∃ r, S.replay T s (S.inplace T s p f op b).tasks = some r ∧
      Same (S.inplace T s p f op b).store r := by
  simp only [inplace]
  cases hc : S.vsetPreAssignCheck T f p (op.apply (s f p) b) op.doTypeCheck with
  | some e => exact ⟨s, rfl, fun _ _ _ => Iff.rfl⟩
  | none =>
    simp only [hp, if_true]
    apply set_replay hf hp
    intro t ht
    unfold vsetPreAssignCheck at hc
    split_ifs at hc with hskip
    · rcases hskip with hnone | hnil
      · exact Or.inl hnone
      · rw [Imap.mem_def, hnil] at ht
        simp at ht
    · -- without a check the result is a part of the set
      cases op with
      | or | xor => exact Or.inr (typed_of_setCheck hc rfl t ht)
      | and => exact hs f p t (Imap.mem_inter.mp ht).1
      | sub => exact hs f p t (Imap.mem_diff.mp ht).1

end

end Set

variable [DecidableEq τ]

theorem removes_replay (hf : S.isSet f) (hp : T.stored p) (ho : Removes S T s p f o) :
    ∃ r, S.replay T s o.tasks = some r ∧ Same o.store r := by
  rcases ho with ⟨ts, hts, ho⟩ | ⟨htasks, hsame⟩
  · exact removeDone_replay hf hp hts ho
  · rw [htasks]
    exact ⟨s, rfl, hsame⟩

theorem clear_replay (hp : T.stored p) :
    ∃ r, S.replay T s (S.clear T s p f).tasks = some r ∧ Same (S.clear T s p f).store r := by
  by_cases hnil : (s f p).things = []
  · refine ⟨s, by simp [clear, hnil, replay], ?_⟩
    have hno : ∀ x, x ∉ s f p := by simp [Imap.mem_def, hnil]
    intro k a x
    simp only [clear, vsetClear, hnil, mem_set, Imap.not_mem_empty]
    cases S.rel f with
    | none => grind
    | some g =>
      simp only [unlinkAll, foldl_nil]
      grind
  · refine ⟨S.vsetClear s p f, by simp [clear, hnil, hp, replay, ctaskRun], ?_⟩
    exact fun _ _ _ => Iff.rfl

/-- The condition under which a call gives the same on a replica. -/
def Replayed (S : Schema φ τ) (T : Things τ) (s : Store φ) : Op φ τ → Prop
  | .add p f args => AddReturns S T s f p args ∧ AddReplayed S T s f p args
  | _ => True

end ThingsDB.Relations
