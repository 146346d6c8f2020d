import ThingsDB.Relations.Link

/-!
# Assignment keeps relations

An assignment to a set takes out of the old value what stays, links what is new
and then unlinks what is left of the old value. An assignment to a property for
one thing unlinks the old thing first.
-/

namespace ThingsDB.Relations

open Util

variable {φ τ : Type} [DecidableEq φ]
variable {S : Schema φ τ} {T : Things τ} {s s' : Store φ} {f g k : φ} {p t : ℕ} {m m' : Imap}
variable {v : Val τ}

theorem set_eq_self (s : Store φ) (f : φ) (p : ℕ) : s.set f p (s f p) = s := by
  funext k a
  rw [Store.set_apply]
  split_ifs with h
  · rw [h.1, h.2]
  · rfl

omit [DecidableEq φ] in
theorem Sound.congr (h : Sound S f g s) (hf : ∀ a x, x ∈ s' f a ↔ x ∈ s f a)
    (hg : ∀ a x, x ∈ s' g a ↔ x ∈ s g a) : Sound S f g s' := by
  constructor
  · intro a b
    rw [hf, hg]
    exact h.symmetric a b
  · intro hs a x hx y hy
    exact h.left hs a x ((hf a x).mp hx) y ((hf a y).mp hy)
  · intro hs a x hx y hy
    exact h.right hs a x ((hg a x).mp hx) y ((hg a y).mp hy)

/-- A thing which is linked for the first time leaves the other things of the old
value where they are. -/
theorem mem_link_slot (hV : Sound S f g (s.set f p m)) (hrel : S.rel f = some g) (hf : S.isSet f)
    (ht : t ∉ m) {x : ℕ} (hx : ¬(g = f ∧ x = p)) : x ∈ S.link s f g p t f p ↔ x ∈ s f p := by
  cases hg : S.isSet g with
  | true =>
    rw [Schema.link_of_set hg]
    simp only [mem_set, Imap.mem_add]
    grind
  | false =>
    have hne : g ≠ f := by
      rintro rfl
      simp [hf] at hg
    rw [mem_link_of_type hg (fun _ => hne) hrel]
    have hhead : (s g t).things.head? ≠ some p := by
      intro ho
      apply ht
      rw [← Store.set_self s f p m, hV.symmetric p t, Store.set_of_ne s m (by simp [hne])]
      exact mem_of_head? ho
    grind

/-- The walk over the new value, with `m` as the things which are linked so far. -/
theorem Sound.walkSet (hrel : S.rel f = some g) (hf : S.isSet f) :
    ∀ (ts : List ℕ) (s : Store φ) (m : Imap), ts.Nodup → Sound S f g (s.set f p m) →
      (∀ x, ¬(g = f ∧ x = p) → x ∈ s f p → x ∈ m) →
      (∀ x ∈ ts, ¬(g = f ∧ x = p) → x ∈ m → x ∈ s f p) →
      ∃ m', Sound S f g ((S.walkSet f g p ts s).set f p m') ∧
        (∀ x, ¬(g = f ∧ x = p) → (x ∈ m' ↔ x ∈ m ∨ x ∈ ts)) ∧
        ∀ x, ¬(g = f ∧ x = p) → (x ∈ S.walkSet f g p ts s f p ↔ x ∈ s f p ∧ x ∉ ts) := by
  intro ts
  induction ts with
  | nil =>
    intro s m _ hV _ _
    exact ⟨m, hV, by simp, by simp [Schema.walkSet]⟩
  | cons t ts ih =>
    intro s m hnd hV hold hnew
    rw [List.nodup_cons] at hnd
    rw [Schema.walkSet]
    by_cases ht : t ∈ s f p
    · rw [if_pos ht]
      obtain ⟨m', hV', hm', hs'⟩ := ih (s.set f p ((s f p).pop t)) m hnd.2
        (by rw [Store.set_set]; exact hV)
        (by
          intro x hx hxs
          rw [Store.set_self, Imap.mem_pop] at hxs
          exact hold x hx hxs.1)
        (by
          intro x hxt hx hxm
          rw [Store.set_self, Imap.mem_pop]
          exact ⟨hnew x (by simp [hxt]) hx hxm, fun h => hnd.1 (h ▸ hxt)⟩)
      refine ⟨m', hV', ?_, ?_⟩
      · intro x hx
        have := hold x hx
        rw [hm' x hx, List.mem_cons]
        grind
      · intro x hx
        rw [hs' x hx, Store.set_self, Imap.mem_pop, List.mem_cons]
        grind
    · rw [if_neg ht]
      have hlink : Sound S f g ((S.link s f g p t).set f p (m.add t)) := by
        apply hV.link hrel
        · simp [hf]
        · simp [hf]
        · simp
      -- the old value is only seen to change where the thing is linked to itself
      have hslot : ∀ x, ¬(g = f ∧ x = p) → (x ∈ S.link s f g p t f p ↔ x ∈ s f p) := by
        intro x hx
        by_cases htp : g = f ∧ t = p
        · obtain ⟨rfl, rfl⟩ := htp
          rw [Schema.link_of_set hf, Store.set_self, Imap.mem_add]
          have hxt : x ≠ t := fun h => hx ⟨rfl, h⟩
          simp [hxt]
        · exact mem_link_slot hV hrel hf (fun h => ht (hnew t (by simp) htp h)) hx
      obtain ⟨m', hV', hm', hs'⟩ := ih (S.link s f g p t) (m.add t) hnd.2 hlink
        (by
          intro x hx hxs
          rw [hslot x hx] at hxs
          exact Imap.mem_add.mpr (Or.inl (hold x hx hxs)))
        (by
          intro x hxt hx hxm
          rw [hslot x hx]
          rcases Imap.mem_add.mp hxm with hxm | rfl
          · exact hnew x (by simp [hxt]) hx hxm
          · exact absurd hxt hnd.1)
      refine ⟨m', hV', ?_, ?_⟩
      · intro x hx
        rw [hm' x hx, Imap.mem_add, List.mem_cons, or_assoc]
      · intro x hx
        rw [hs' x hx, hslot x hx, List.mem_cons]
        grind

theorem Sound.relate (h : Sound S f g s) (hrel : S.rel f = some g) (hf : S.isSet f) :
    Sound S f g ((S.relate s f p m).set f p m) := by
  obtain ⟨m₁, hV, hm₁, hs⟩ := Sound.walkSet (p := p) hrel hf m.things s (s f p) m.nodup
    (by rw [set_eq_self]; exact h) (fun _ _ hx => hx) (fun _ _ _ hx => hx)
  set w := S.walkSet f g p m.things s with hw
  have hsub : ∀ x, ¬(g = f ∧ x = p) → x ∈ w f p → x ∈ m₁ := by
    intro x hx hxw
    exact (hm₁ x hx).mpr (Or.inl ((hs x hx).mp hxw).1)
  have hV₂ : Sound S f g (w.set f p (m₁.union (w f p))) := by
    apply hV.slot hf
    intro x hx
    have := hsub x hx
    rw [Imap.mem_union]
    grind
  have hV₃ : Sound S f g ((S.unlinkAll g p (w f p).things w).set f p
      ((m₁.union (w f p)).diff (w f p))) := by
    apply hV₂.unlinkAll hrel
    · intro x hx
      exact Imap.mem_union.mpr (Or.inr hx)
    · intro x
      rw [Imap.mem_diff]
      rfl
  have heq : S.relate s f p m = S.unlinkAll g p (w f p).things w := by
    simp only [Schema.relate, hrel, hw]
  rw [heq]
  apply hV₃.slot hf
  intro x hx
  rw [Imap.mem_diff, Imap.mem_union, hm₁ x hx, hs x hx]
  have : x ∈ m ↔ x ∈ m.things := Iff.rfl
  grind

theorem Sound.release (h : Sound S f g s) (hrel : S.rel f = some g) (hf : S.isSet f = false) :
    Sound S f g ((S.release s f g p).set f p .empty) := by
  cases ho : (s f p).things with
  | nil =>
    have hrelease : S.release s f g p = s := by simp [Schema.release, ho]
    have hempty : s f p = .empty := by
      cases hs : s f p
      simp_all [Imap.empty]
    rw [hrelease, ← hempty, set_eq_self]
    exact h
  | cons o os =>
    have hrelease : S.release s f g p = S.unlinkAll g p [o] s := by
      simp [Schema.release, ho, Schema.unlinkAll]
    have hmem : o ∈ s f p := by simp [Imap.mem_def, ho]
    rw [hrelease]
    apply Sound.unlinkAll (m := s f p) (by rw [set_eq_self]; exact h) hrel
    · simp [hmem]
    · intro x
      simp only [Imap.not_mem_empty, List.mem_singleton, false_iff, not_and, not_not]
      intro hx
      exact h.left hf p x hx o hmem

theorem release_self (h : Sound S f f s) (hf : S.isSet f = false) {o : ℕ}
    (ho : o ∈ S.release s f f p f p) : o = p ∨ S.release s f f p f o = .empty := by
  cases hs : (s f p).things with
  | nil =>
    have hrelease : S.release s f f p = s := by simp [Schema.release, hs]
    rw [hrelease, Imap.mem_def, hs] at ho
    simp at ho
  | cons o' os =>
    have hrelease : S.release s f f p = s.set f o' .empty := by
      simp [Schema.release, hs, Schema.delCb, hf]
    rw [hrelease] at ho ⊢
    by_cases hp : p = o'
    · simp [hp] at ho
    · rw [Store.set_of_ne _ _ (by simp [hp])] at ho
      have hoo : o = o' := h.left hf p o ho o' (by simp [Imap.mem_def, hs])
      right
      rw [hoo, Store.set_self]

section Frame

/-! Other properties than `f` and its partner keep their values. -/

variable (hk : k ≠ f) (hkg : k ≠ g)

theorem set_other (hk : k ≠ f) (s : Store φ) (p : ℕ) (m : Imap) : s.set f p m k = s k := by
  funext a
  exact Store.set_of_ne s m (fun h => hk h.1)

theorem delCb_other (hk : k ≠ f) (s : Store φ) (p t : ℕ) : S.delCb s f p t k = s k := by
  unfold Schema.delCb
  split_ifs
  · rfl
  · exact set_other hk s p _
  · exact set_other hk s p _

include hk hkg

theorem link_other (s : Store φ) (p t : ℕ) : S.link s f g p t k = s k := by
  cases hg : S.isSet g with
  | true => rw [Schema.link_of_set hg, set_other hkg]
  | false =>
    cases hs : (s g t).things with
    | nil => rw [Schema.link_of_nil hg hs, set_other hkg]
    | cons o os => rw [Schema.link_of_thing hg hs, set_other hkg, delCb_other hk]

theorem walkSet_other (ts : List ℕ) (s : Store φ) : S.walkSet f g p ts s k = s k := by
  induction ts generalizing s with
  | nil => rfl
  | cons t ts ih =>
    rw [Schema.walkSet, ih]
    split_ifs
    · exact set_other hk s p _
    · exact link_other hk hkg s p t

omit hk in
theorem unlinkAll_other (ts : List ℕ) (s : Store φ) : S.unlinkAll g p ts s k = s k := by
  induction ts generalizing s with
  | nil => rfl
  | cons t ts ih => exact (ih _).trans (delCb_other hkg s t p)

omit hk in
theorem release_other (s : Store φ) (p : ℕ) : S.release s f g p k = s k := by
  unfold Schema.release
  cases (s f p).things with
  | nil => rfl
  | cons o os => exact delCb_other hkg s o p

omit hkg in
theorem relate_other (hkr : S.rel f ≠ some k) (s : Store φ) (p : ℕ) (m : Imap) :
    S.relate s f p m k = s k := by
  unfold Schema.relate
  cases hg : S.rel f with
  | none => rfl
  | some g =>
    have hkg : k ≠ g := by
      rintro rfl
      exact hkr hg
    exact (unlinkAll_other hkg _ _).trans (walkSet_other hk hkg _ s)

end Frame

/-- A value which can be assigned, and what the relations are then. -/
inductive Assigns (S : Schema φ τ) (s : Store φ) (f : φ) (p : ℕ) : Val τ → Store φ → Imap → Prop
  | set (spec : Option τ) (m : Imap) (hf : S.isSet f = true) :
    Assigns S s f p (.set spec m) (S.relate s f p m) m
  | plainNil (hf : S.isSet f = false) (hrel : S.rel f = none) :
    Assigns S s f p .nil s .empty
  | plainThing (t : ℕ) (hf : S.isSet f = false) (hrel : S.rel f = none) :
    Assigns S s f p (.thing t) s (.single t)
  | nil (g : φ) (hf : S.isSet f = false) (hrel : S.rel f = some g) :
    Assigns S s f p .nil (S.release s f g p) .empty
  | thing (g : φ) (t : ℕ) (hf : S.isSet f = false) (hrel : S.rel f = some g) :
    Assigns S s f p (.thing t) (S.link (S.release s f g p) f g p t) (.single t)

theorem makeAssignable_ok [DecidableEq τ]
    (h : S.makeAssignable T s f p v = .ok (s', m)) : Assigns S s f p v s' m := by
  unfold Schema.makeAssignable at h
  cases hf : S.isSet f with
  | true =>
    rw [if_pos hf] at h
    cases v with
    | set spec imap =>
      simp only at h
      split at h
      · cases h
      · cases h
        exact .set spec _ hf
    | nil | thing | other => cases h
  | false =>
    rw [if_neg (by simp [hf])] at h
    cases hrel : S.rel f with
    | none =>
      cases v with
      | nil =>
        simp only [hrel] at h
        cases h
        exact .plainNil hf hrel
      | thing t =>
        simp only [hrel] at h
        split_ifs at h
        cases h
        exact .plainThing t hf hrel
      | set | other =>
        simp only at h
        cases h
    | some g =>
      cases v with
      | nil =>
        simp only [hrel] at h
        cases h
        exact .nil g hf hrel
      | thing t =>
        simp only [hrel] at h
        split_ifs at h
        cases h
        exact .thing g t hf hrel
      | set | other =>
        simp only at h
        cases h

/-- An assignment to one side of a relation. -/
theorem Assigns.sound_own (ha : Assigns S s f p v s' m)
    (hrel : S.rel f = some g) (h : Sound S f g s) : Sound S f g (s'.set f p m) := by
  cases ha with
  | set spec m hf => exact h.relate hrel hf
  | plainNil hf hnone => simp [hnone] at hrel
  | plainThing t hf hnone => simp [hnone] at hrel
  | nil k hf hk =>
    cases hk.symm.trans hrel
    exact h.release hrel hf
  | thing k t hf hk =>
    cases hk.symm.trans hrel
    apply (h.release hrel hf).link hrel
    · exact fun _ => rfl
    · rintro o ho rfl _ _
      exact release_self h hf ho
    · simp

theorem Assigns.other (ha : Assigns S s f p v s' m)
    (hk : k ≠ f) (hkr : S.rel f ≠ some k) : s'.set f p m k = s k := by
  rw [set_other hk]
  cases ha with
  | set spec m hf => exact relate_other hk hkr s p m
  | plainNil | plainThing => rfl
  | nil g hf hrel =>
    apply release_other
    rintro rfl
    exact hkr hrel
  | thing g t hf hrel =>
    have hkg : k ≠ g := by
      rintro rfl
      exact hkr hrel
    rw [link_other hk hkg, release_other hkg]

/-- A field is one of the two sides of a relation, or it has nothing to do with it. -/
theorem rel_cases (hrel : S.rel f = some g) :
    k = f ∨ k = g ∨ (f ≠ k ∧ S.rel k ≠ some f) ∧ g ≠ k ∧ S.rel k ≠ some g := by
  by_cases hf : k = f
  · exact Or.inl hf
  by_cases hg : k = g
  · exact Or.inr (Or.inl hg)
  · right
    right
    have hgf := S.rel_involutive f g hrel
    constructor
    · constructor
      · exact Ne.symm hf
      · intro hk
        exact hg (Option.some.inj ((S.rel_involutive k f hk).symm.trans hrel))
    · constructor
      · exact Ne.symm hg
      · intro hk
        exact hf (Option.some.inj ((S.rel_involutive k g hk).symm.trans hgf))

/-- When an operation on `k` keeps the relation of `k`, and does not touch other
properties, it keeps every relation. -/
theorem Sound.of_touched (h : Sound S f g s) (hrel : S.rel f = some g)
    (hown : ∀ l, S.rel k = some l → Sound S k l s → Sound S k l s')
    (hother : ∀ l, l ≠ k → S.rel k ≠ some l → s' l = s l) : Sound S f g s' := by
  rcases rel_cases (k := k) hrel with rfl | rfl | ⟨hf, hg⟩
  · exact hown g hrel h
  · exact (hown f (S.rel_involutive f k hrel) h.swap).swap
  · apply h.congr
    · rw [hother f hf.1 hf.2]
      exact fun _ _ => Iff.rfl
    · rw [hother g hg.1 hg.2]
      exact fun _ _ => Iff.rfl

theorem Assigns.sound (ha : Assigns S s k p v s' m)
    (hrel : S.rel f = some g) (h : Sound S f g s) : Sound S f g (s'.set k p m) := by
  apply h.of_touched (k := k) hrel
  · exact fun l hl hs => ha.sound_own hl hs
  · exact fun l hl hlr => ha.other hl hlr

section Typed

variable [DecidableEq τ]

omit [DecidableEq φ] in
/-- What the checks of an assignment, and those of its operator, make sure of. -/
theorem typed_of_setCheck {b : Bool} (h : S.setCheck T f p m b = none) (hb : b) :
    ∀ t ∈ m, S.target f = some (T.typeOf t) := by
  intro t ht
  by_contra hne
  have hex : b = true ∧ ∃ t ∈ m.things, some (T.typeOf t) ≠ S.target f :=
    ⟨hb, t, ht, fun heq => hne heq.symm⟩
  simp [Schema.setCheck, hex] at h

/-- The things in a value which is assigned have the type of the field, unless the value is
a set with the same specification. -/
theorem typed_of_makeAssignable {x : ℕ}
    (h : S.makeAssignable T s f p v = .ok (s', m)) (hx : x ∈ m) :
    S.target f = none ∨ (∃ spec, v = .set spec m ∧ S.target f = spec) ∨
      S.target f = some (T.typeOf x) := by
  cases makeAssignable_ok h with
  | set spec m hf =>
    have hcheck : S.vsetAssignCheck T f p spec m = none := by
      cases hc : S.vsetAssignCheck T f p spec m with
      | none => rfl
      | some e => simp [Schema.makeAssignable, hf, hc] at h
    unfold Schema.vsetAssignCheck at hcheck
    split_ifs at hcheck with hskip
    · rcases hskip with hnone | hspec | hnil
      · exact .inl hnone
      · exact .inr (.inl ⟨spec, rfl, hspec⟩)
      · rw [Imap.mem_def, hnil] at hx
        simp at hx
    · exact .inr (.inr (typed_of_setCheck hcheck rfl x hx))
  | plainNil | nil => simp at hx
  | plainThing t hf hrel | thing g t hf hrel =>
    obtain rfl := Imap.mem_single.mp hx
    right
    right
    by_contra hne
    simp [Schema.makeAssignable, hf, hrel, Ne.symm hne] at h

end Typed

section Adds

/-- Nothing but `p` is added, and that to `g` only. -/
def Adds (s s' : Store φ) (g : φ) (p : ℕ) : Prop :=
  ∀ k a, ∀ x ∈ s' k a, x ∈ s k a ∨ k = g ∧ x = p

omit [DecidableEq φ] in
theorem Adds.trans {s' s'' : Store φ} (h : Adds s s' g p) (h' : Adds s' s'' g p) :
    Adds s s'' g p := by
  intro k a x hx
  rcases h' k a x hx with hx | hx
  · exact h k a x hx
  · exact .inr hx

omit [DecidableEq φ] in
theorem adds_refl : Adds s s g p := fun _ _ _ hx => .inl hx

theorem adds_set {a : ℕ} (hm : ∀ x ∈ m, x ∈ s k a ∨ k = g ∧ x = p) :
    Adds s (s.set k a m) g p := by
  intro l b x hx
  rcases mem_set.mp hx with ⟨rfl, rfl, hxm⟩ | ⟨-, hxs⟩
  · exact hm x hxm
  · exact .inl hxs

theorem adds_delCb {a b : ℕ} : Adds s (S.delCb s k a b) g p := by
  unfold Schema.delCb
  split_ifs
  · exact adds_refl
  · exact adds_set fun x hx => .inl (Imap.mem_pop.mp hx).1
  · exact adds_set fun x hx => absurd hx (Imap.not_mem_empty x)

theorem adds_addCb : Adds s (S.addCb s g t p) g p := by
  unfold Schema.addCb
  split_ifs
  · apply adds_set
    intro x hx
    rcases Imap.mem_add.mp hx with hx | rfl
    · exact .inl hx
    · exact .inr ⟨rfl, rfl⟩
  · exact adds_set fun x hx => .inr ⟨rfl, Imap.mem_single.mp hx⟩

theorem adds_link : Adds s (S.link s f g p t) g p := by
  unfold Schema.link
  split_ifs
  · exact adds_addCb
  · cases (s g t).things with
    | nil => exact adds_addCb
    | cons o os => exact adds_delCb.trans adds_addCb

theorem adds_walkSet (ts : List ℕ) (s : Store φ) : Adds s (S.walkSet f g p ts s) g p := by
  induction ts generalizing s with
  | nil => exact adds_refl
  | cons t ts ih =>
    rw [Schema.walkSet]
    apply Adds.trans _ (ih _)
    split_ifs
    · exact adds_set fun x hx => .inl (Imap.mem_pop.mp hx).1
    · exact adds_link

theorem adds_unlinkAll {ts : List ℕ} : Adds s (S.unlinkAll g p ts s) g p :=
  fun _ _ _ hx => .inl (mem_unlinkAll.mp hx).1

theorem adds_relate (hrel : S.rel f = some g) : Adds s (S.relate s f p m) g p := by
  simp only [Schema.relate, hrel]
  exact (adds_walkSet _ s).trans adds_unlinkAll

theorem adds_release : Adds s (S.release s f g p) g p := by
  unfold Schema.release
  cases (s f p).things with
  | nil => exact adds_refl
  | cons o os => exact adds_delCb

theorem Assigns.adds (ha : Assigns S s f p v s' m) (hrel : S.rel f = some g) : Adds s s' g p := by
  cases ha with
  | set spec m hf => exact adds_relate hrel
  | plainNil hf hnone => simp [hnone] at hrel
  | plainThing t hf hnone => simp [hnone] at hrel
  | nil k hf hk =>
    cases hk.symm.trans hrel
    exact adds_release
  | thing k t hf hk =>
    cases hk.symm.trans hrel
    exact adds_release.trans adds_link

end Adds

end ThingsDB.Relations
