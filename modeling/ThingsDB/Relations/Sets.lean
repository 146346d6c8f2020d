import ThingsDB.Relations.Assign

/-!
# Set functions and relations

`add`, `remove` and `clear`. A call of `add` which fails takes the things out of the
set again, but not the set out of the things.
-/

namespace ThingsDB.Relations

open Util List

variable {φ τ : Type} [DecidableEq φ]
variable {S : Schema φ τ} {T : Things τ} {s : Store φ} {f g : φ} {p t : ℕ} {m : Imap}
variable {args : List (Schema.Arg φ τ)} {k : φ} {ts : List ℕ} {o : Outcome φ} {x : ℕ}

theorem mem_vsetAdd_slot (hf : S.isSet f) :
    x ∈ (S.vsetAdd s f p t).2 f p ↔ x ∈ s f p ∨ x = t := by
  simp only [Schema.vsetAdd, Store.set_self, Imap.mem_add]
  by_cases hx : x = t
  · simp [hx]
  simp only [hx, or_false, Schema.addRelation]
  cases hrel : S.rel f with
  | none => rfl
  | some g =>
    simp only
    split_ifs with hself
    · rfl
    cases hg : S.isSet g with
    | true =>
      rw [Schema.link_of_set hg, Store.set_of_ne]
      grind
    | false =>
      have hne : g ≠ f := by
        rintro rfl
        simp [hf] at hg
      rw [mem_link_of_type hg (fun _ => hne) hrel]
      grind

theorem Sound.vsetAdd (h : Sound S f g s) (hrel : S.rel f = some g) (hf : S.isSet f)
    (p t : ℕ) : Sound S f g (S.vsetAdd s f p t).2 := by
  have hslot := fun x => mem_vsetAdd_slot (s := s) (p := p) (t := t) (x := x) hf
  have hbase : Sound S f g (s.set f p (s f p)) := by
    rw [set_eq_self]
    exact h
  by_cases hself : S.isSet g = true ∧ g = f ∧ t = p
  · simp only [Schema.vsetAdd, Schema.addRelation, hrel, if_pos hself]
    apply hbase.slot hf
    intro x hx
    have hxt : x ≠ t := fun hxt => hx ⟨hself.2.1, hxt.trans hself.2.2⟩
    simp [hxt]
  · simp only [Schema.vsetAdd, Schema.addRelation, hrel, if_neg hself, Store.set_self] at hslot ⊢
    apply hbase.link hrel
    · simp [hf]
    · simp [hf]
    · exact hslot

theorem vsetAdd_other (hk : k ≠ f) (hkr : S.rel f ≠ some k) (s : Store φ) (p t : ℕ) :
    (S.vsetAdd s f p t).2 k = s k := by
  simp only [Schema.vsetAdd, set_other hk, Schema.addRelation]
  cases hrel : S.rel f with
  | none => rfl
  | some g =>
    have hkg : k ≠ g := by
      rintro rfl
      exact hkr hrel
    simp only
    split_ifs
    · rfl
    · exact link_other hk hkg s p t

/-- The loop of `do__f_add` over things which pass the checks. -/
def addAll (S : Schema φ τ) (f : φ) (p : ℕ) : List ℕ → Store φ → List ℕ → Store φ × List ℕ
  | [], s, added => (s, added)
  | t :: ts, s, added =>
    let r := S.vsetAdd s f p t
    addAll S f p ts r.2 (if r.1 then added ++ [t] else added)

theorem Sound.addAll (hrel : S.rel f = some g) (hf : S.isSet f) (ts : List ℕ) :
    ∀ (s : Store φ) (added : List ℕ), Sound S f g s → Sound S f g (addAll S f p ts s added).1 := by
  induction ts with
  | nil => exact fun _ _ h => h
  | cons t ts ih => exact fun s added h => ih _ _ (h.vsetAdd hrel hf p t)

theorem mem_slot_of_added (hf : S.isSet f) (ts : List ℕ) : ∀ (s : Store φ) (added : List ℕ),
    (∀ t ∈ added, t ∈ s f p) →
      ∀ t ∈ (addAll S f p ts s added).2, t ∈ (addAll S f p ts s added).1 f p := by
  induction ts with
  | nil => exact fun _ _ h => h
  | cons t ts ih =>
    intro s added h
    refine ih _ _ fun x hx => (mem_vsetAdd_slot hf).mpr ?_
    split_ifs at hx
    · exact (mem_append.mp hx).imp (h x) mem_singleton.mp
    · exact .inl (h x hx)

theorem addAll_other (hk : k ≠ f) (hkr : S.rel f ≠ some k) (ts : List ℕ) :
    ∀ (s : Store φ) (added : List ℕ), (addAll S f p ts s added).1 k = s k := by
  induction ts with
  | nil => exact fun _ _ => rfl
  | cons t ts ih => exact fun s added => (ih _ _).trans (vsetAdd_other hk hkr s p t)

/-- A thing counts as new when it was not in the set. Where things have one partner
every thing counts as new, since it is first taken from its partner. -/
theorem vsetAdd_new (h : Sound S f g s) (hrel : S.rel f = some g) (hf : S.isSet f) :
    (S.vsetAdd s f p t).1 ↔ (S.isSet g → t ∉ s f p) := by
  simp only [Schema.vsetAdd, decide_eq_true_eq, Schema.addRelation, hrel]
  cases hg : S.isSet g with
  | true =>
    split_ifs with hself
    · simp
    · rw [Schema.link_of_set hg, Store.set_of_ne _ _ (by grind)]
      simp
  | false =>
    have hne : g ≠ f := by
      rintro rfl
      simp [hf] at hg
    simp only [Bool.false_eq_true, false_and, if_false, false_imp_iff, iff_true]
    rw [mem_link_of_type hg (fun _ => hne) hrel]
    have hhead : t ∈ s f p → (s g t).things.head? = some p := by
      intro ht
      have hp : p ∈ s g t := (h.symmetric p t).mp ht
      cases ho : (s g t).things.head? with
      | none => exact absurd hp (head?_eq_none ho p)
      | some o => rw [h.right hg t p hp o (mem_of_head? ho)]
    grind

theorem mem_added (hrel : S.rel f = some g) (hf : S.isSet f) (ts : List ℕ) :
    ∀ (s : Store φ) (added : List ℕ), Sound S f g s →
      (x ∈ (addAll S f p ts s added).2 ↔
        x ∈ added ∨ x ∈ ts ∧ (S.isSet g → x ∉ s f p)) := by
  induction ts with
  | nil => simp [addAll]
  | cons t ts ih =>
    intro s added h
    rw [addAll, ih _ _ (h.vsetAdd hrel hf p t), mem_vsetAdd_slot hf]
    have hnew := vsetAdd_new (p := p) (t := t) h hrel hf
    by_cases hb : (S.vsetAdd s f p t).1 = true
    · have ht := hnew.mp hb
      simp only [hb, if_true, mem_append, mem_cons]
      grind
    · have ht : ¬(S.isSet g = true → t ∉ s f p) := fun hn => hb (hnew.mpr hn)
      simp only [hb, Bool.false_eq_true, if_false, mem_cons]
      grind

omit [DecidableEq φ] in
theorem Symmetric.swap (h : Symmetric s f g) : Symmetric s g f := fun a b => (h b a).symm

theorem symmetric_set_iff (h : Sound S f g s) (hts : ∀ t ∈ ts, t ∈ s f p)
    (hm : ∀ x, x ∈ m ↔ x ∈ s f p ∧ x ∉ ts) :
    Symmetric (s.set f p m) f g ↔ ∀ t ∈ ts, g = f ∧ t = p := by
  constructor
  · intro hsym t ht
    by_contra hne
    have hpt : p ∈ s g t := (h.symmetric p t).mp (hts t ht)
    have hmt := (hsym p t).mpr (by rw [Store.set_of_ne _ _ hne]; exact hpt)
    rw [Store.set_self, hm] at hmt
    exact hmt.2 ht
  · intro hself a b
    have hab := h.symmetric a b
    simp only [mem_set, hm]
    grind

theorem undoAdd_some {s' : Store φ} (ts : List ℕ) : ∀ s : Store φ,
    Schema.undoAdd f p ts s = some s' → ts.Nodup ∧ (∀ t ∈ ts, t ∈ s f p) ∧
      ∃ m, s' = s.set f p m ∧ ∀ x, x ∈ m ↔ x ∈ s f p ∧ x ∉ ts := by
  induction ts with
  | nil =>
    intro s h
    cases h
    exact ⟨nodup_nil, by simp, s' f p, (set_eq_self s' f p).symm, by simp⟩
  | cons t ts ih =>
    intro s h
    rw [Schema.undoAdd] at h
    split_ifs at h with ht
    obtain ⟨hnodup, hts, m, rfl, hm⟩ := ih _ h
    simp only [Store.set_self, Imap.mem_pop] at hts hm
    refine ⟨nodup_cons.mpr ⟨fun hmem => (hts t hmem).2 rfl, hnodup⟩, ?_, ?_⟩
    · intro x hx
      rcases mem_cons.mp hx with rfl | hx
      · exact ht
      · exact (hts x hx).1
    · refine ⟨m, Store.set_set s f p _ m, ?_⟩
      intro x
      rw [hm, mem_cons]
      tauto

theorem exists_undoAdd (ts : List ℕ) : ∀ s : Store φ, ts.Nodup → (∀ t ∈ ts, t ∈ s f p) →
    ∃ s', Schema.undoAdd f p ts s = some s' := by
  induction ts with
  | nil => exact fun s _ _ => ⟨s, rfl⟩
  | cons t ts ih =>
    intro s hnodup h
    rw [Schema.undoAdd, if_pos (h t mem_cons_self)]
    refine ih _ hnodup.of_cons fun x hx => ?_
    rw [Store.set_self, Imap.mem_pop]
    exact ⟨h x (mem_cons_of_mem t hx), fun heq => (nodup_cons.mp hnodup).1 (heq ▸ hx)⟩

/-- The arguments change no property. -/
def PureArgs (args : List (Schema.Arg φ τ)) : Prop := ∀ arg ∈ args, ∀ s, (arg s).1 = s

section Args

variable [DecidableEq τ]

/-- The things before the first argument which fails, and the error of that one. -/
def splitArgs (S : Schema φ τ) (T : Things τ) (f : φ) (p : ℕ) :
    List (Schema.Arg φ τ) → Store φ → List ℕ × Option Ex
  | [], _ => ([], none)
  | arg :: args, s =>
    match S.addArg T f p (arg s).2 with
    | .error e => ([], some e)
    | .ok t =>
      let r := splitArgs S T f p args (S.vsetAdd s f p t).2
      (t :: r.1, r.2)

theorem addLoop_eq (args : List (Schema.Arg φ τ)) (hpure : PureArgs args) :
    ∀ (s : Store φ) (added : List ℕ), S.addLoop T f p args s added =
      ((splitArgs S T f p args s).2, addAll S f p (splitArgs S T f p args s).1 s added) := by
  induction args with
  | nil => exact fun _ _ => rfl
  | cons arg args ih =>
    intro s added
    simp only [Schema.addLoop, splitArgs, hpure arg mem_cons_self s]
    cases harg : S.addArg T f p (arg s).2 with
    | error e => rfl
    | ok t => exact ih (fun a ha => hpure a (mem_cons_of_mem arg ha)) _ _

/-- No thing is new twice if the call fails, as it would be popped twice. -/
def AddReturns (S : Schema φ τ) (T : Things τ) (s : Store φ) (f : φ) (p : ℕ)
    (args : List (Schema.Arg φ τ)) : Prop :=
  (splitArgs S T f p args s).2 ≠ none → (addAll S f p (splitArgs S T f p args s).1 s []).2.Nodup

omit [DecidableEq φ] [DecidableEq τ] in
theorem nargsMin_cons (arg : Schema.Arg φ τ) (args : List (Schema.Arg φ τ)) :
    nargsMin "add" (docSee "data-types/set/add") 1 (arg :: args).length = none := by
  simp [nargsMin]

theorem exists_add (hf : S.isSet f) (hpure : PureArgs args) :
    (∃ o, S.add T s p f args = some o) ↔ AddReturns S T s f p args := by
  unfold AddReturns
  cases args with
  | nil => exact iff_of_true ⟨_, rfl⟩ fun h => absurd rfl h
  | cons arg args =>
    simp only [Schema.add, nargsMin_cons]
    rw [addLoop_eq _ hpure]
    cases he : (splitArgs S T f p (arg :: args) s).2 with
    | none => simp
    | some e =>
      simp only [Option.map_eq_some_iff]
      constructor
      · rintro ⟨-, s', hs', -⟩ -
        exact nodup_reverse.mp (undoAdd_some _ _ hs').1
      · intro hnodup
        obtain ⟨s', hs'⟩ := exists_undoAdd (f := f) (p := p) _ _ (nodup_reverse.mpr (hnodup nofun))
          fun t ht => mem_slot_of_added hf _ s [] (by simp) t (mem_reverse.mp ht)
        exact ⟨_, s', hs', rfl⟩

theorem add_iff (hf : S.isSet f) (hpure : PureArgs args) {P : Outcome φ → Prop} {Q : Prop}
    (h : ∀ o, S.add T s p f args = some o → (P o ↔ Q)) :
    (∃ o, S.add T s p f args = some o ∧ P o) ↔ AddReturns S T s f p args ∧ Q := by
  rw [← exists_add hf hpure]
  constructor
  · rintro ⟨o, ho, hP⟩
    exact ⟨⟨o, ho⟩, (h o ho).mp hP⟩
  · rintro ⟨⟨o, ho⟩, hQ⟩
    exact ⟨o, ho, (h o ho).mpr hQ⟩

/-- How a call of `add` ends. The things which were new are popped when it fails. -/
theorem add_cases (hpure : PureArgs args) (ho : S.add T s p f args = some o) :
    (args = [] ∧ o.store = s ∧ o.tasks = []) ∨
    ((splitArgs S T f p args s).2 = none ∧
      o.store = (addAll S f p (splitArgs S T f p args s).1 s []).1 ∧
      o.tasks = if (addAll S f p (splitArgs S T f p args s).1 s []).2 ≠ [] ∧ T.stored p = true
        then [.setAdd p f (addAll S f p (splitArgs S T f p args s).1 s []).2] else []) ∨
    ((splitArgs S T f p args s).2 ≠ none ∧ o.tasks = [] ∧
      (∀ t ∈ (addAll S f p (splitArgs S T f p args s).1 s []).2,
        t ∈ (addAll S f p (splitArgs S T f p args s).1 s []).1 f p) ∧
      ∃ m, o.store = (addAll S f p (splitArgs S T f p args s).1 s []).1.set f p m ∧
        ∀ x, x ∈ m ↔ x ∈ (addAll S f p (splitArgs S T f p args s).1 s []).1 f p ∧
          x ∉ (addAll S f p (splitArgs S T f p args s).1 s []).2) := by
  cases args with
  | nil =>
    cases ho
    exact .inl ⟨rfl, rfl, rfl⟩
  | cons arg args =>
    right
    simp only [Schema.add, nargsMin_cons] at ho
    rw [addLoop_eq _ hpure] at ho
    cases he : (splitArgs S T f p (arg :: args) s).2 with
    | none =>
      left
      simp only [he] at ho
      cases ho
      exact ⟨rfl, rfl, rfl⟩
    | some e =>
      right
      simp only [he, Option.map_eq_some_iff] at ho
      obtain ⟨s', hs', rfl⟩ := ho
      obtain ⟨-, hts, m, rfl, hm⟩ := undoAdd_some _ _ hs'
      simp only [mem_reverse] at hts hm
      exact ⟨by simp, rfl, hts, m, rfl, hm⟩

theorem add_other (hpure : PureArgs args) (ho : S.add T s p f args = some o)
    (hk : k ≠ f) (hkr : S.rel f ≠ some k) : o.store k = s k := by
  have hall := addAll_other (p := p) hk hkr (splitArgs S T f p args s).1 s []
  rcases add_cases hpure ho with ⟨-, hs, -⟩ | ⟨-, hs, -⟩ | ⟨-, -, -, m, hs, -⟩
  · rw [hs]
  · rw [hs, hall]
  · rw [hs, set_other hk, hall]

/-- The call succeeds, or the things before the argument which fails were in the set
already, and the relation is one between sets. -/
def AddSafe (S : Schema φ τ) (T : Things τ) (s : Store φ) (f g : φ) (p : ℕ)
    (args : List (Schema.Arg φ τ)) : Prop :=
  (splitArgs S T f p args s).2 ≠ none →
    ∀ t ∈ (splitArgs S T f p args s).1, S.isSet g = true ∧ (t ∈ s f p ∨ (g = f ∧ t = p))

theorem add_symmetric_iff (h : Sound S f g s) (hrel : S.rel f = some g) (hf : S.isSet f)
    (hpure : PureArgs args) (ho : S.add T s p f args = some o) :
    Symmetric o.store f g ↔ AddSafe S T s f g p args := by
  have hsound := Sound.addAll (p := p) hrel hf (splitArgs S T f p args s).1 s [] h
  have hadded := fun x => mem_added (p := p) (x := x) hrel hf (splitArgs S T f p args s).1 s [] h
  unfold AddSafe
  rcases add_cases hpure ho with ⟨rfl, hs, -⟩ | ⟨he, hs, -⟩ | ⟨he, -, hts, m, hs, hm⟩
  · rw [hs]
    simp [splitArgs, h.symmetric]
  · rw [hs]
    simp [he, hsound.symmetric]
  · rw [hs, symmetric_set_iff hsound hts hm]
    simp only [hadded, not_mem_nil, false_or, he, ne_eq, not_false_eq_true, forall_const]
    have hne : S.isSet g = false → g ≠ f := by
      rintro hg rfl
      simp [hf] at hg
    cases hg : S.isSet g with
    | true => grind
    | false => grind

end Args

section Remove

theorem mem_pops {a : ℕ} :
    x ∈ ts.foldl (fun s t => s.set f p ((s f p).pop t)) s k a ↔
      x ∈ s k a ∧ ¬(k = f ∧ a = p ∧ x ∈ ts) := by
  induction ts generalizing s with
  | nil => simp
  | cons t ts ih =>
    rw [foldl_cons, ih, mem_set, Imap.mem_pop, mem_cons]
    grind

theorem mem_undoRemove {a : ℕ} :
    x ∈ Schema.undoRemove f p ts s k a ↔ x ∈ s k a ∨ (k = f ∧ a = p ∧ x ∈ ts) := by
  have hfold : ∀ (us : List ℕ) (s : Store φ),
      x ∈ (us.foldl (fun s t => s.set f p ((s f p).add t)) s : Store φ) k a ↔
        x ∈ s k a ∨ (k = f ∧ a = p ∧ x ∈ us) := by
    intro us
    induction us with
    | nil => simp
    | cons t us ih =>
      intro s
      rw [foldl_cons, ih, mem_set, Imap.mem_add, mem_cons]
      grind
  rw [Schema.undoRemove, hfold, mem_reverse]

theorem removeLoop_spec (args : List (Schema.Arg φ τ)) (hpure : PureArgs args) :
    ∀ (n : ℕ) (s : Store φ) (removed : List ℕ), ∃ ts, (∀ t ∈ ts, t ∈ s f p) ∧
      (Schema.removeLoop T f p n args s removed).2.2 = removed ++ ts ∧
      (Schema.removeLoop T f p n args s removed).2.1 =
        ts.foldl (fun s t => s.set f p ((s f p).pop t)) s := by
  induction args with
  | nil => exact fun n s removed => ⟨[], by simp, by simp [Schema.removeLoop], rfl⟩
  | cons arg args ih =>
    intro n s removed
    have hrec := ih fun a ha => hpure a (mem_cons_of_mem arg ha)
    simp only [Schema.removeLoop, hpure arg mem_cons_self s]
    cases harg : Schema.removeArg T n (arg s).2 with
    | error e => exact ⟨[], by simp, by simp, rfl⟩
    | ok t =>
      by_cases ht : t ∈ s f p
      · obtain ⟨ts, hts, hr, hs⟩ := hrec (n + 1) (s.set f p ((s f p).pop t)) (removed ++ [t])
        simp only [ht, if_true]
        refine ⟨t :: ts, ?_, ?_, ?_⟩
        · intro x hx
          rcases mem_cons.mp hx with rfl | hx
          · exact ht
          · have := hts x hx
            rw [Store.set_self, Imap.mem_pop] at this
            exact this.1
        · rw [hr, append_assoc, singleton_append]
        · rw [hs, foldl_cons]
      · simp only [ht, if_false]
        exact hrec (n + 1) s removed

/-- Things which are popped and then unlinked. -/
theorem Sound.removeDone (h : Sound S f g s) (hrel : S.rel f = some g)
    (hf : S.isSet f) (hts : ∀ t ∈ ts, t ∈ s f p) :
    Sound S f g (S.removeDone T
      (ts.foldl (fun s t => s.set f p ((s f p).pop t)) s) p f ts).store := by
  have hgf := S.rel_involutive f g hrel
  have hV : Sound S f g
      ((S.unlinkAll g p ts s).set f p ((s f p).diff ⟨ts.dedup, ts.nodup_dedup⟩)) := by
    apply Sound.unlinkAll (m := s f p) _ hrel hts
    · intro x
      rw [Imap.mem_diff]
      simp [Imap.mem_def]
    · rw [set_eq_self]
      exact h
  have hiff : ∀ k a x, x ∈ (S.removeDone T
      (ts.foldl (fun s t => s.set f p ((s f p).pop t)) s) p f ts).store k a ↔
        x ∈ (S.unlinkAll g p ts s).set f p ((s f p).diff ⟨ts.dedup, ts.nodup_dedup⟩) k a := by
    intro k a x
    simp only [Schema.removeDone, hrel, mem_unlinkAll, mem_pops, mem_set, Imap.mem_diff, hgf,
      Option.some.injEq]
    simp only [Imap.mem_def, mem_dedup]
    grind
  exact hV.congr (hiff f) (hiff g)

theorem removeDone_other (hk : k ≠ f) (hkr : S.rel f ≠ some k) (s : Store φ) (p : ℕ)
    (ts : List ℕ) : (S.removeDone T
      (ts.foldl (fun s t => s.set f p ((s f p).pop t)) s) p f ts).store k = s k := by
  have hpops : ∀ (ts : List ℕ) (s : Store φ),
      ts.foldl (fun s t => s.set f p ((s f p).pop t)) s k = s k := by
    intro ts
    induction ts with
    | nil => exact fun _ => rfl
    | cons t ts ih => exact fun s => (ih _).trans (set_other hk s p _)
  simp only [Schema.removeDone]
  cases hrel : S.rel f with
  | none => exact hpops ts s
  | some g =>
    have hkg : k ≠ g := by
      rintro rfl
      exact hkr hrel
    exact (unlinkAll_other hkg ts _).trans (hpops ts s)

/-- How a call of `remove` ends: things of the set are popped and unlinked, or all is as it
was. -/
def Removes (S : Schema φ τ) (T : Things τ) (s : Store φ) (p : ℕ) (f : φ) (o : Outcome φ) : Prop :=
  (∃ ts, (∀ t ∈ ts, t ∈ s f p) ∧ o = S.removeDone T
    (ts.foldl (fun s t => s.set f p ((s f p).pop t)) s) p f ts) ∨
  (o.tasks = [] ∧ ∀ k a x, x ∈ o.store k a ↔ x ∈ s k a)

theorem removes_remove (hpure : PureArgs args) : Removes S T s p f (S.remove T s p f args) := by
  obtain ⟨ts, hts, hr, hs⟩ := removeLoop_spec (T := T) (f := f) (p := p) args hpure 1 s []
  rcases hl : Schema.removeLoop T f p 1 args s [] with ⟨r, s', removed⟩
  simp only [hl, nil_append] at hr hs
  subst hr hs
  unfold Removes
  cases hn : nargsMin "remove" (docSee "data-types/set/remove") 1 args.length with
  | some e =>
    right
    simp [Schema.remove, hn]
  | none =>
    simp only [Schema.remove, hn, hl]
    cases r with
    | none => exact .inl ⟨removed, hts, rfl⟩
    | some e =>
      refine .inr ⟨rfl, fun k a x => ?_⟩
      rw [mem_undoRemove, mem_pops]
      have := hts x
      grind

omit [DecidableEq φ] in
theorem selectLoop_spec {closure : Schema.Closure φ} (hpure : ∀ t s, (closure t s).1 = s)
    (limit : ℤ) (ts : List ℕ) : ∀ removed : List ℕ,
      (Schema.selectLoop closure limit ts s removed).2.1 = s ∧
        ∀ x ∈ (Schema.selectLoop closure limit ts s removed).2.2, x ∈ removed ∨ x ∈ ts := by
  induction ts with
  | nil => exact fun removed => ⟨rfl, fun x hx => .inl hx⟩
  | cons t ts ih =>
    intro removed
    simp only [Schema.selectLoop, hpure]
    cases closure t s with
    | mk _ r =>
      cases r with
      | error e => exact ⟨rfl, fun x hx => .inl hx⟩
      | ok b =>
        have hsub : ∀ x ∈ (if b then removed ++ [t] else removed), x ∈ removed ∨ x ∈ t :: ts := by
          cases b with
          | true =>
            intro x hx
            rcases mem_append.mp hx with hx | hx
            · exact .inl hx
            · exact .inr (mem_singleton.mp hx ▸ mem_cons_self)
          | false => exact fun x hx => .inl hx
        simp only
        generalize (if b = true then removed ++ [t] else removed) = selected at hsub ⊢
        split_ifs
        · exact ⟨rfl, hsub⟩
        · refine ⟨(ih _).1, fun x hx => ?_⟩
          rcases (ih _).2 x hx with hx | hx
          · exact hsub x hx
          · exact .inr (mem_cons_of_mem t hx)

theorem removes_removeIf {closure : Schema.Closure φ} (hpure : ∀ t s, (closure t s).1 = s)
    (limit : ℤ) : Removes S T s p f (S.removeIf T s p f closure limit) := by
  have hspec : ∀ r, (if limit = 0 then (none, s, []) else
      Schema.selectLoop closure limit (s f p).things s []) = r →
        r.2.1 = s ∧ ∀ t ∈ r.2.2, t ∈ s f p := by
    rintro r rfl
    split_ifs
    · simp
    · obtain ⟨hs, hts⟩ := selectLoop_spec (s := s) hpure limit (s f p).things []
      exact ⟨hs, fun t ht => (hts t ht).resolve_left not_mem_nil⟩
  unfold Schema.removeIf Removes
  split
  · next e s' removed hsel =>
    obtain ⟨rfl, hts⟩ := hspec _ hsel
    refine .inr ⟨rfl, fun k a x => ?_⟩
    rw [mem_undoRemove]
    have := hts x
    grind
  · next s' removed hsel =>
    obtain ⟨rfl, hts⟩ := hspec _ hsel
    exact .inl ⟨removed, hts, rfl⟩

theorem Sound.removes (h : Sound S f g s) (hrel : S.rel f = some g) (hk : S.isSet k)
    (ho : Removes S T s p k o) : Sound S f g o.store := by
  rcases ho with ⟨ts, hts, rfl⟩ | ⟨-, hiff⟩
  · apply h.of_touched (k := k) hrel
    · exact fun l hl hs => hs.removeDone hl hk hts
    · exact fun l hlk hlr => removeDone_other hlk hlr s p ts
  · exact h.congr (hiff f) (hiff g)

theorem Sound.vsetClear (h : Sound S f g s) (hrel : S.rel f = some g) :
    Sound S f g (S.vsetClear s p k) := by
  apply h.of_touched (k := k) hrel
  · intro l hl hs
    simp only [Schema.vsetClear, hl]
    apply Sound.unlinkAll (m := s k p) (by rw [set_eq_self]; exact hs) hl
    · exact fun t ht => ht
    · intro x
      simp [Imap.mem_def, Imap.empty]
  · intro l hlk hlr
    simp only [Schema.vsetClear, set_other hlk]
    cases hg : S.rel k with
    | none => rfl
    | some g =>
      apply unlinkAll_other
      rintro rfl
      exact hlr hg

end Remove

end ThingsDB.Relations
