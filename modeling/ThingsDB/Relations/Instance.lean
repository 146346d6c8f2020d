import ThingsDB.Relations.Assign

/-!
# New instances and relations

The fields of a new instance `n` are assigned one after the other; when one of them
fails, `ti_thing_cancel` unlinks what `n` was related to. An instance which is made out
of another one of the same type gets the values of that one without any link.
-/

namespace ThingsDB.Relations

open Util List

variable {φ τ : Type} [DecidableEq φ]
variable {S : Schema φ τ} {T : Things τ} {s s₀ : Store φ} {f g : φ} {n t : ℕ}

def New (s : Store φ) (n : ℕ) : Prop := ∀ f x, x ∉ s f n

def Val.Has : Val τ → ℕ → Prop
  | .thing t, x => x = t
  | .set _ m, x => x ∈ m
  | _, _ => False

variable {done fields : List φ} {a x : ℕ} {h k : φ}

section Own

/-! The properties of `n` itself only lose things while a value is made assignable. -/

theorem mem_of_mem_delCb {o b : ℕ} (hx : x ∈ S.delCb s k o b h a) : x ∈ s h a := by
  have heq : S.delCb s k o b = S.unlinkAll k b [o] s := rfl
  rw [heq, mem_unlinkAll] at hx
  exact hx.1

theorem mem_of_mem_link_own (hrel : S.rel f = some g) (ht : t ≠ n)
    (hx : x ∈ S.link s f g n t h n) : x ∈ s h n := by
  have hnt : ¬(h = g ∧ n = t) := fun hc => ht hc.2.symm
  cases hg : S.isSet g with
  | true =>
    rw [Schema.link_of_set hg, Store.set_of_ne _ _ hnt] at hx
    exact hx
  | false =>
    have hne : S.isSet f = true → g ≠ f := by
      rintro hf rfl
      simp [hf] at hg
    rw [mem_link_of_type hg hne hrel] at hx
    rcases hx with ⟨hh, hn, -⟩ | ⟨-, hx, -⟩
    · exact absurd ⟨hh, hn⟩ hnt
    · exact hx

theorem mem_of_mem_walkSet_own (hrel : S.rel f = some g) (ts : List ℕ) :
    ∀ s : Store φ, n ∉ ts → x ∈ S.walkSet f g n ts s h n → x ∈ s h n := by
  induction ts with
  | nil => exact fun _ _ hx => hx
  | cons t ts ih =>
    intro s hts hx
    rw [mem_cons, not_or] at hts
    have hstep := ih _ hts.2 hx
    split_ifs at hstep with ht
    · rw [mem_set, Imap.mem_pop] at hstep
      grind
    · exact mem_of_mem_link_own hrel (Ne.symm hts.1) hstep

theorem mem_of_mem_release {p : ℕ} (hx : x ∈ S.release s f g p h a) : x ∈ s h a := by
  unfold Schema.release at hx
  cases hs : (s f p).things with
  | nil =>
    rw [hs] at hx
    exact hx
  | cons o os =>
    rw [hs] at hx
    exact mem_of_mem_delCb hx

theorem Assigns.own {v : Val τ} {s' : Store φ} {m : Imap} (ha : Assigns S s f n v s' m)
    (hv : ¬v.Has n) : n ∉ m ∧ ∀ h x, x ∈ s' h n → x ∈ s h n := by
  cases ha with
  | set spec m hf =>
    constructor
    · exact hv
    · intro h x hx
      unfold Schema.relate at hx
      cases hrel : S.rel f with
      | none =>
        rw [hrel] at hx
        exact hx
      | some g =>
        simp only [hrel, mem_unlinkAll] at hx
        exact mem_of_mem_walkSet_own hrel _ s hv hx.1
  | plainNil | nil =>
    constructor
    · simp
    · first
        | exact fun h x hx => hx
        | exact fun h x hx => mem_of_mem_release hx
  | plainThing t hf hrel => exact ⟨fun hn => hv (Imap.mem_single.mp hn), fun h x hx => hx⟩
  | thing g t hf hrel =>
    constructor
    · exact fun hn => hv (Imap.mem_single.mp hn)
    · intro h x hx
      exact mem_of_mem_release (mem_of_mem_link_own hrel (Ne.symm hv) hx)

end Own

section Init

variable [DecidableEq τ] {props : φ → Option (Val τ)}

/-- The values when the fields are assigned, or when one of them fails. -/
def initStore : Except (Ex × Store φ) (Store φ) → Store φ
  | .ok s => s
  | .error (_, s) => s

/-- A property which every assignment of a field keeps. -/
theorem initFields_induction {P : Store φ → Prop} (fields : List φ)
    (hstep : ∀ s, ∀ f ∈ fields, ∀ v s' m, P s → props f = some v → Assigns S s f n v s' m →
      P (s'.set f n m)) :
    ∀ s, P s → P (initStore (S.initFields T n props fields s)) := by
  induction fields with
  | nil => exact fun _ h => h
  | cons f fs ih =>
    intro s h
    have ih' := ih (fun s k hk => hstep s k (mem_cons_of_mem f hk))
    unfold Schema.initFields
    cases hp : props f with
    | none => exact ih' s h
    | some v =>
      simp only
      cases ha : S.makeAssignable T s f n v with
      | error e => exact h
      | ok r =>
        obtain ⟨s', m⟩ := r
        exact ih' _ (hstep s f mem_cons_self v s' m h hp (makeAssignable_ok ha))

theorem Sound.initFields (hrel : S.rel f = some g) (fields : List φ) (h : Sound S f g s) :
    Sound S f g (initStore (S.initFields T n props fields s)) :=
  initFields_induction fields (fun _ _ _ _ _ _ hs _ ha => ha.sound hrel hs) s h

/-- A new thing has no value for a field which is not its own, and is not related to
itself. -/
theorem initFields_own (fields : List φ) (hnew : New s n)
    (hprops : ∀ f v, props f = some v → ¬v.Has n) (h : φ) :
    n ∉ initStore (S.initFields T n props fields s) h n ∧
      (h ∉ fields → ∀ x, x ∉ initStore (S.initFields T n props fields s) h n) := by
  apply initFields_induction (P := fun s => n ∉ s h n ∧ (h ∉ fields → ∀ x, x ∉ s h n)) fields
  · intro s f hf v s' m hs hp ha
    obtain ⟨hm, hown⟩ := ha.own (hprops f v hp)
    by_cases hhf : h = f
    · subst hhf
      rw [Store.set_self]
      exact ⟨hm, fun hh => absurd hf hh⟩
    · rw [set_other hhf]
      exact ⟨fun hn => hs.1 (hown h n hn), fun hh x hx => hs.2 hh x (hown h x hx)⟩
  · exact ⟨hnew h n, fun _ => hnew h⟩

end Init

section Cancel

theorem mem_cancelField (hrel : S.rel f = some g)
    (hone : S.isSet f = false → ∀ x ∈ s f n, ∀ y ∈ s f n, x = y) :
    x ∈ S.cancelField n s f k a ↔
      x ∈ s k a ∧ ¬(k = g ∧ a ∈ s f n ∧
        (S.isSet g → x = n ∧ ¬(S.rel g = some g ∧ a = n))) ∧
      ¬(S.isSet f = false ∧ k = f ∧ a = n) := by
  simp only [Schema.cancelField, hrel]
  cases hf : S.isSet f with
  | true =>
    rw [if_pos rfl, mem_unlinkAll, ← Imap.mem_def]
    simp
  | false =>
    have hone := hone hf
    cases hs : (s f n).things with
    | nil =>
      have hnil : ∀ x, x ∉ s f n := by simp [Imap.mem_def, hs]
      simp only [Bool.false_eq_true, if_false]
      grind
    | cons o os =>
      have ho : o ∈ s f n := by simp [Imap.mem_def, hs]
      have hdel : S.delCb s g o n = S.unlinkAll g n [o] s := rfl
      have hmem : ∀ y, y ∈ s f n ↔ y = o := fun y => ⟨fun hy => hone y hy o ho, fun hy => hy ▸ ho⟩
      simp only [Bool.false_eq_true, if_false, hdel, mem_set, mem_unlinkAll, mem_singleton,
        Imap.not_mem_empty, hmem]
      grind

theorem cancelField_other (hk : k ≠ f) (hkr : S.rel f ≠ some k) (s : Store φ) (n : ℕ) :
    S.cancelField n s f k = s k := by
  unfold Schema.cancelField
  cases hrel : S.rel f with
  | none => rfl
  | some g =>
    have hkg : k ≠ g := by
      rintro rfl
      exact hkr hrel
    simp only
    split_ifs
    · exact unlinkAll_other hkg _ s
    · cases (s f n).things with
      | nil => rfl
      | cons o os => exact (set_other hk _ n _).trans (delCb_other hkg s o n)

/-- The cancellation of `n`, from `s₀`, as far as it goes from `f` to `g`. -/
structure Cancelled (s₀ : Store φ) (n : ℕ) (f g : φ) (done : List φ) (s : Store φ) : Prop where
  sub : ∀ x, x ∈ s f n → x ∈ s₀ f n
  keep : f ∉ done → ∀ x, x ∈ s₀ f n → x ∈ s f n
  gone : ∀ a x, a ≠ n → (x ∈ s g a ↔ x ∈ s₀ g a ∧ ¬(f ∈ done ∧ x = n))

section

variable (h₀ : Sound S f g s₀) (hrel : S.rel f = some g)

include h₀ hrel

theorem Cancelled.own (h : Cancelled s₀ n f g done s) :
    Cancelled s₀ n f g (done ++ [f]) (S.cancelField n s f) := by
  have hmem := fun k a x => mem_cancelField (s := s) (n := n) (k := k) (a := a) (x := x) hrel
    (fun hf x hx y hy => h₀.left hf n x (h.sub x hx) y (h.sub y hy))
  constructor
  · intro x hx
    exact h.sub x ((hmem f n x).mp hx).1
  · simp
  · intro a x ha
    rw [hmem, h.gone a x ha]
    have hsymm := h₀.symmetric n a
    have hsub := h.sub a
    have hkeep := fun hd => h.keep hd a
    have hright := fun hg => h₀.right hg a x
    simp only [mem_append, mem_singleton, or_true, true_and]
    cases hg : S.isSet g with
    | true => grind
    | false =>
      have := hright hg
      grind

theorem Cancelled.step (hn : n ∉ s₀ f n) (h : Cancelled s₀ n f g done s)
    (h' : Cancelled s₀ n g f done s) : Cancelled s₀ n f g (done ++ [k]) (S.cancelField n s k) := by
  by_cases hkf : k = f
  · rw [hkf]
    exact h.own h₀ hrel
  have hgf := S.rel_involutive f g hrel
  have hdone : f ∈ done ++ [k] ↔ f ∈ done := by simp [Ne.symm hkf]
  have hng : n ∉ s₀ g n := fun hg => hn ((h₀.symmetric n n).mpr hg)
  -- the slots which matter here are not touched
  have hkeep : ∀ x, x ∈ S.cancelField n s k f n ↔ x ∈ s f n := by
    intro x
    by_cases hkg : k = g
    · subst hkg
      rw [mem_cancelField hgf
        (fun hg x hx y hy => h₀.right hg n x (h'.sub x hx) y (h'.sub y hy))]
      have := h'.sub n
      grind
    · rw [cancelField_other (Ne.symm hkf)]
      intro hk
      exact hkg (Option.some.inj ((S.rel_involutive k f hk).symm.trans hrel))
  have hgone : ∀ a x, a ≠ n → (x ∈ S.cancelField n s k g a ↔ x ∈ s g a) := by
    intro a x ha
    by_cases hkg : k = g
    · subst hkg
      rw [mem_cancelField hgf
        (fun hg x hx y hy => h₀.right hg n x (h'.sub x hx) y (h'.sub y hy))]
      grind
    · rw [cancelField_other (Ne.symm hkg)]
      intro hk
      exact hkf (Option.some.inj ((S.rel_involutive k g hk).symm.trans hgf))
  constructor
  · exact fun x hx => h.sub x ((hkeep x).mp hx)
  · intro hd x hx
    rw [hdone] at hd
    exact (hkeep x).mpr (h.keep hd x hx)
  · intro a x ha
    rw [hgone a x ha, hdone]
    exact h.gone a x ha

theorem Cancelled.run (hn : n ∉ s₀ f n)
    (fields : List φ) : ∀ (done : List φ) (s : Store φ), Cancelled s₀ n f g done s →
      Cancelled s₀ n g f done s →
      Cancelled s₀ n f g (done ++ fields) (fields.foldl (S.cancelField n) s) ∧
        Cancelled s₀ n g f (done ++ fields) (fields.foldl (S.cancelField n) s) := by
  have hgf := S.rel_involutive f g hrel
  have hng : n ∉ s₀ g n := fun hg => hn ((h₀.symmetric n n).mpr hg)
  induction fields with
  | nil =>
    intro done s h h'
    rw [append_nil]
    exact ⟨h, h'⟩
  | cons k fields ih =>
    intro done s h h'
    rw [append_cons]
    exact ih (done ++ [k]) _ (h.step h₀ hrel hn h') (h'.step h₀.swap hgf hng h)

end

theorem Sound.cancel (h : Sound S f g s) (hrel : S.rel f = some g) (hn : n ∉ s f n)
    (hf : f ∉ fields → ∀ x, x ∉ s f n) (hg : g ∉ fields → ∀ x, x ∉ s g n) :
    Sound S f g (S.cancel s n fields) := by
  have hstart : ∀ k l : φ, Cancelled s n k l [] s := fun k l =>
    ⟨fun _ hx => hx, fun _ _ hx => hx, by simp⟩
  obtain ⟨hfg, hgf⟩ := Cancelled.run h hrel hn fields [] s (hstart f g) (hstart g f)
  rw [nil_append] at hfg hgf
  -- nothing refers to `n` any more, and `n` to nothing
  have hmemf : ∀ a x, x ∈ S.cancel s n fields f a ↔ x ∈ s f a ∧ a ≠ n ∧ x ≠ n := by
    intro a x
    by_cases ha : a = n
    · simp [Schema.cancel, ha]
    · simp only [Schema.cancel, ha, if_false]
      rw [hgf.gone a x ha]
      have := h.symmetric a n
      grind
  have hmemg : ∀ a x, x ∈ S.cancel s n fields g a ↔ x ∈ s g a ∧ a ≠ n ∧ x ≠ n := by
    intro a x
    by_cases ha : a = n
    · simp [Schema.cancel, ha]
    · simp only [Schema.cancel, ha, if_false]
      rw [hfg.gone a x ha]
      have := h.symmetric n a
      grind
  constructor
  · intro a b
    rw [hmemf, hmemg, h.symmetric a b]
    tauto
  · intro hs a x hx y hy
    exact h.left hs a x ((hmemf a x).mp hx).1 y ((hmemf a y).mp hy).1
  · intro hs a x hx y hy
    exact h.right hs a x ((hmemg a x).mp hx).1 y ((hmemg a y).mp hy).1

end Cancel

section Copy

theorem mem_copyFields (ht : t ≠ n) :
    x ∈ Schema.copyFields s n t fields k a ↔
      (k ∈ fields ∧ a = n ∧ x ∈ s k t) ∨ (¬(k ∈ fields ∧ a = n) ∧ x ∈ s k a) := by
  unfold Schema.copyFields
  induction fields generalizing s with
  | nil => simp
  | cons f fields ih =>
    rw [foldl_cons, ih, mem_set, mem_set, mem_cons]
    grind

/-- The copy of an instance breaks a relation which the instance has. -/
theorem copyFields_symmetric_iff (h : Symmetric s f g) (hnew : New s n) :
    Symmetric (Schema.copyFields s n t fields) f g ↔
      (f ∈ fields → ∀ x, x ∉ s f t) ∧ (g ∈ fields → ∀ x, x ∉ s g t) := by
  by_cases ht : t = n
  · have hcopy : ∀ fields : List φ, Schema.copyFields s n n fields = s := by
      intro fields
      induction fields with
      | nil => rfl
      | cons k fields ih =>
        simp only [Schema.copyFields, foldl_cons, set_eq_self] at ih ⊢
        exact ih
    rw [ht, hcopy fields]
    exact ⟨fun _ => ⟨fun _ => hnew f, fun _ => hnew g⟩, fun _ => h⟩
  have hno : ∀ a, n ∉ s f a ∧ n ∉ s g a := by
    intro a
    exact ⟨fun ha => hnew g a ((h a n).mp ha), fun ha => hnew f a ((h n a).mpr ha)⟩
  constructor
  · intro hsym
    constructor
    · intro hf x hx
      have hxn : x ≠ n := fun hc => (hno t).1 (hc ▸ hx)
      have := (hsym n x).mp ((mem_copyFields ht).mpr (Or.inl ⟨hf, rfl, hx⟩))
      rw [mem_copyFields ht] at this
      have := (hno x).2
      grind
    · intro hg x hx
      have hxn : x ≠ n := fun hc => (hno t).2 (hc ▸ hx)
      have := (hsym x n).mpr ((mem_copyFields ht).mpr (Or.inl ⟨hg, rfl, hx⟩))
      rw [mem_copyFields ht] at this
      have := (hno x).1
      grind
  · rintro ⟨hf, hg⟩ a b
    rw [mem_copyFields ht, mem_copyFields ht, h a b]
    have ha := hno a
    have hb := hno b
    have hab := h a b
    have hnf := hnew f b
    have hng := hnew g a
    grind

end Copy

end ThingsDB.Relations
