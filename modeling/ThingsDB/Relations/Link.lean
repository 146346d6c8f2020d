import ThingsDB.Relations.Ops

/-!
# Links between related properties

While an operation runs, the property which is assigned still has its old value.
The lemmas here are about the values with the new one already in its place.
-/

namespace ThingsDB.Relations

open Util

variable {φ τ : Type} [DecidableEq φ]
variable {S : Schema φ τ} {s : Store φ} {f g : φ} {p t : ℕ} {m m' : Imap}

/-- The properties `f` and `g` are each other's converse. -/
def Symmetric (s : Store φ) (f g : φ) : Prop := ∀ a b, b ∈ s f a ↔ a ∈ s g b

/-- No value of `f` has more than one thing. -/
def Single (s : Store φ) (f : φ) : Prop := ∀ a, ∀ x ∈ s f a, ∀ y ∈ s f a, x = y

structure Sound (S : Schema φ τ) (f g : φ) (s : Store φ) : Prop where
  symmetric : Symmetric s f g
  left : S.isSet f = false → Single s f
  right : S.isSet g = false → Single s g

theorem closed_iff_symmetric :
    Converse.Closed (Converse.pair f g) s.Rel ↔ Symmetric s f g := Converse.closed_pair

omit [DecidableEq φ] in
theorem Sound.swap (h : Sound S f g s) : Sound S g f s :=
  ⟨fun a b => (h.symmetric b a).symm, h.right, h.left⟩

variable {B : ℕ → Prop} {s' : Store φ} {ts : List ℕ}

theorem Symmetric.insert (h : Symmetric s f g)
    (hiff : ∀ k a b, s'.Rel k a b ↔ Converse.insert s.Rel f g p B k a b) : Symmetric s' f g := by
  have hc := closed_iff_symmetric.mpr h
  have hi := hc.insert (Converse.pair_involutive f g) (Converse.pair_left f g) p B
  exact closed_iff_symmetric.mp (hi.congr hiff)

theorem Symmetric.erase (h : Symmetric s f g)
    (hiff : ∀ k a b, s'.Rel k a b ↔ Converse.erase s.Rel f g p B k a b) : Symmetric s' f g := by
  have hc := closed_iff_symmetric.mpr h
  have hi := hc.erase (Converse.pair_involutive f g) (Converse.pair_left f g) p B
  exact closed_iff_symmetric.mp (hi.congr hiff)

variable {m : Imap} {a o x : ℕ} {k : φ}

theorem mem_set {h : φ} :
    x ∈ s.set f p m h a ↔ (h = f ∧ a = p ∧ x ∈ m) ∨ (¬(h = f ∧ a = p) ∧ x ∈ s h a) := by
  rw [Store.set_apply]
  split_ifs with hc
  · simp [hc]
  · constructor
    · exact fun hx => Or.inr ⟨hc, hx⟩
    · rintro (⟨hh, ha, -⟩ | ⟨-, hx⟩)
      · exact absurd ⟨hh, ha⟩ hc
      · exact hx

namespace Schema

theorem link_of_set (hg : S.isSet g) (s : Store φ) (f : φ) (p t : ℕ) :
    S.link s f g p t = s.set g t ((s g t).add p) := by
  simp [link, addCb, hg]

theorem link_of_nil (hg : S.isSet g = false) (hs : (s g t).things = []) (f : φ) (p : ℕ) :
    S.link s f g p t = s.set g t (.single p) := by
  simp [link, addCb, hg, hs]

theorem link_of_thing {os : List ℕ} (hg : S.isSet g = false) (hs : (s g t).things = o :: os)
    (f : φ) (p : ℕ) : S.link s f g p t = (S.delCb s f o t).set g t (.single p) := by
  simp [link, addCb, hg, hs]

end Schema

/-- What a link does to the property of a thing which can have one partner: the
present partner, if there is one, loses it. -/
theorem mem_link_of_type (hg : S.isSet g = false) (hf : S.isSet f → g ≠ f)
    (hrel : S.rel f = some g) :
    x ∈ S.link s f g p t k a ↔
      (k = g ∧ a = t ∧ x = p) ∨ (¬(k = g ∧ a = t) ∧ x ∈ s k a ∧
        ¬(k = f ∧ (s g t).things.head? = some a ∧ (S.isSet f → x = t))) := by
  cases hs : (s g t).things with
  | nil =>
    rw [Schema.link_of_nil hg hs]
    simp [mem_set]
  | cons o os =>
    rw [Schema.link_of_thing hg hs]
    cases hfs : S.isSet f with
    | true =>
      have hne := hf hfs
      simp only [mem_set, Imap.mem_single, Schema.delCb, hfs, hrel, Option.some.injEq, hne]
      simp [mem_set]
      grind
    | false =>
      simp [mem_set, Schema.delCb, hfs]
      grind

theorem head?_eq_none (h : m.things.head? = none) (x : ℕ) : x ∉ m := by
  rw [List.head?_eq_none_iff] at h
  simp [Imap.mem_def, h]

theorem mem_of_head? (h : m.things.head? = some o) : o ∈ m :=
  List.mem_of_mem_head? h

section

variable (hV : Sound S f g (s.set f p m))

include hV

theorem Sound.link_of_type (hrel : S.rel f = some g)
    (hg : S.isSet g = false) (hm : S.isSet f = false → m = .empty)
    (hself : ∀ o ∈ s f p, g = f → S.isSet f = false → t = p → o = p ∨ s f o = .empty)
    (hm' : ∀ x, x ∈ m' ↔ x ∈ m ∨ x = t) : Symmetric ((S.link s f g p t).set f p m') f g := by
  have hne : S.isSet f = true → g ≠ f := by
    rintro hf rfl
    simp [hf] at hg
  have hmem := fun k a x => mem_link_of_type (s := s) (p := p) (t := t) (k := k) (a := a)
    (x := x) hg hne hrel
  cases ho : (s g t).things.head? with
  | none =>
    have hnil := head?_eq_none ho
    apply hV.symmetric.insert (p := p) (B := (· = t))
    intro k a b
    simp only [Store.Rel, Converse.insert, Converse.IsPair, mem_set, hm', hmem, ho]
    grind
  | some o =>
    have hos := mem_of_head? ho
    by_cases hpt : g = f ∧ t = p
    · obtain ⟨rfl, rfl⟩ := hpt
      have hst := hself o hos rfl hg rfl
      apply hV.symmetric.insert (p := t) (B := (· = t))
      intro k a b
      simp only [Store.Rel, Converse.insert, Converse.IsPair, mem_set, hm', hmem, ho]
      grind [Imap.not_mem_empty]
    · -- the present partner `o` is seen as well with the new value in its place
      have hset : s.set f p m g t = s g t := Store.set_of_ne s m hpt
      have hst : ∀ x, x ∈ s g t ↔ x = o := by
        intro x
        rw [← hset] at hos ⊢
        constructor
        · intro hx
          exact hV.right hg t x hx o hos
        · rintro rfl
          exact hos
      have hso : t ∈ s.set f p m f o := by
        rw [hV.symmetric o t, hset]
        exact hos
      have hleft : S.isSet f = false → ∀ x ∈ s.set f p m f o, x = t :=
        fun hf x hx => hV.left hf o x hx t hso
      have hc := closed_iff_symmetric.mpr hV.symmetric
      have hcc := (hc.erase (Converse.pair_involutive f g) (Converse.pair_left f g) o
        (· = t)).insert (Converse.pair_involutive f g) (Converse.pair_left f g) p (· = t)
      apply closed_iff_symmetric.mp
      apply hcc.congr
      intro k a b
      simp only [Store.Rel, Converse.insert, Converse.erase, Converse.IsPair, mem_set, hm', hmem,
        ho] at hso hleft ⊢
      clear hmem hc hcc hV hself hos
      by_cases hkf : k = f ∧ a = p
      · obtain ⟨rfl, rfl⟩ := hkf
        grind
      · by_cases hkg : k = g ∧ a = t
        · obtain ⟨rfl, rfl⟩ := hkg
          grind
        · cases hf : S.isSet f with
          | true => grind
          | false => grind [Imap.not_mem_empty]

theorem Sound.link (hrel : S.rel f = some g) (hm : S.isSet f = false → m = .empty)
    (hself : ∀ o ∈ s f p, g = f → S.isSet f = false → t = p → o = p ∨ s f o = .empty)
    (hm' : ∀ x, x ∈ m' ↔ x ∈ m ∨ x = t) : Sound S f g ((S.link s f g p t).set f p m') := by
  cases hg : S.isSet g with
  | true =>
    rw [Schema.link_of_set hg]
    constructor
    · apply hV.symmetric.insert (p := p) (B := (· = t))
      intro k a b
      simp only [Store.Rel, Converse.insert, Converse.IsPair, mem_set, hm', Imap.mem_add]
      grind
    · intro hf a x hx y hy
      have := hV.left hf a
      simp only [mem_set, hm', hm hf, Imap.mem_add, Imap.not_mem_empty] at hx hy this
      grind
    · simp [hg]
  | false =>
    have hne : S.isSet f = true → g ≠ f := by
      rintro hf rfl
      simp [hf] at hg
    have hmem := fun k a x => mem_link_of_type (s := s) (p := p) (t := t) (k := k) (a := a)
      (x := x) hg hne hrel
    constructor
    · exact hV.link_of_type hrel hg hm hself hm'
    · intro hf a x hx y hy
      have := hV.left hf a
      simp only [mem_set, hm', hm hf, hmem, Imap.not_mem_empty] at hx hy this
      grind
    · intro _ a x hx y hy
      have := hV.right hg a
      simp only [mem_set, hm', hmem] at hx hy this
      grind [Imap.not_mem_empty]

/-- The value of a set which is related to itself may or may not hold its own thing. -/
theorem Sound.slot (hf : S.isSet f)
    (hm' : ∀ x, ¬(g = f ∧ x = p) → (x ∈ m' ↔ x ∈ m)) : Sound S f g (s.set f p m') := by
  constructor
  · intro a b
    by_cases hself : g = f ∧ a = b
    · rw [hself.1, hself.2]
    · have hab := hV.symmetric a b
      have ha := hm' a
      have hb := hm' b
      simp only [mem_set] at hab ⊢
      grind
  · simp [hf]
  · intro hg a x hx y hy
    have hne : ¬(g = f ∧ a = p) := by
      rintro ⟨rfl, -⟩
      simp [hf] at hg
    rw [Store.set_of_ne _ _ hne] at hx hy
    have hright := hV.right hg a
    rw [Store.set_of_ne _ _ hne] at hright
    exact hright x hx y hy

end

theorem mem_unlinkAll :
    x ∈ S.unlinkAll g p ts s k a ↔
      x ∈ s k a ∧ ¬(k = g ∧ a ∈ ts ∧
        (S.isSet g → x = p ∧ ¬(S.rel g = some g ∧ a = p))) := by
  induction ts generalizing s with
  | nil => simp [Schema.unlinkAll]
  | cons t ts ih =>
    have hstep : S.unlinkAll g p (t :: ts) s = S.unlinkAll g p ts (S.delCb s g t p) := rfl
    rw [hstep, ih]
    cases hg : S.isSet g with
    | true =>
      simp only [Schema.delCb, hg, if_true]
      split_ifs with hsame
      · grind
      · simp only [mem_set, Imap.mem_pop]
        grind
    | false =>
      simp only [Schema.delCb, hg, Bool.false_eq_true, if_false, mem_set, Imap.not_mem_empty]
      grind

theorem Sound.unlinkAll (hV : Sound S f g (s.set f p m)) (hrel : S.rel f = some g)
    (hts : ∀ t ∈ ts, t ∈ m) (hm' : ∀ x, x ∈ m' ↔ x ∈ m ∧ x ∉ ts) :
    Sound S f g ((S.unlinkAll g p ts s).set f p m') := by
  have hgf : S.rel g = some f := S.rel_involutive f g hrel
  have hsub : ∀ k a x, x ∈ (S.unlinkAll g p ts s).set f p m' k a → x ∈ s.set f p m k a := by
    intro k a x hx
    simp only [mem_set, hm', mem_unlinkAll] at hx ⊢
    grind
  constructor
  · apply hV.symmetric.erase (p := p) (B := (· ∈ ts))
    intro k a b
    -- a thing with one partner has no other partner than `p`
    have hone : S.isSet g = false → a ∈ ts → b ∈ s.set f p m g a → b = p := by
      intro hg ha hb
      apply hV.right hg a b hb p
      rw [← hV.symmetric p a, Store.set_self]
      exact hts a ha
    simp only [Store.Rel, Converse.erase, Converse.IsPair, mem_set, hm', mem_unlinkAll, hgf,
      Option.some.injEq] at hone ⊢
    cases hg : S.isSet g with
    | true => grind
    | false =>
      have := hone hg
      grind
  · intro hf a x hx y hy
    exact hV.left hf a x (hsub f a x hx) y (hsub f a y hy)
  · intro hg a x hx y hy
    exact hV.right hg a x (hsub g a x hx) y (hsub g a y hy)

end ThingsDB.Relations
