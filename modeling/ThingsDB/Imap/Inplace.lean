import Mathlib.Tactic.Ring
import ThingsDB.Imap.Merge

/-!
# Operations in place

Union, difference, intersection and symmetric difference of two nodes into the first of them.
-/

namespace ThingsDB.Imap.Node

open Paths

variable {α : Type} {f : Bool → Bool → Bool} {val : List Key → α}
variable {nd node : Node α}

theorem Sound.sz_eq_sum (h : Sound val nd) : (nd.sz : ℤ) = ∑ k, (nd.ensureNode k).entries := by
  rw [h.sz, count, Nat.cast_sum]
  refine Finset.sum_congr rfl fun k _ => ?_
  rw [(h.ensureNode k).entries_eq, Node.under]

structure Same (src dest : Node α) : Prop where
  kids : ∀ k, src.ensureNode k = dest.ensureNode k
  data : src.data = dest.data
  sz : src.sz = dest.sz
  nodes : src.hasNodes = dest.hasNodes

theorem same_growAs (node dest : Node α) : Same (node.growAs dest) dest :=
  ⟨by simp, by simp, by simp, by simp⟩

theorem same_self (dest : Node α) : Same dest dest := ⟨fun _ => rfl, rfl, rfl, rfl⟩

/-- A loop over the child nodes of `dest` whose rounds merge them with those of `node`. -/
theorem eachNode_merged {src dest : Node α} {g : Key → Node α → Node α × ℤ}
    (hsame : Same src dest) (hdest : Sound val dest) (hn : dest.hasNodes)
    (hround : ∀ k, Round f (fun p => val (k :: p)) (dest.ensureNode k) (node.ensureNode k)
      (dest.ensureNode k).entries (g k (dest.ensureNode k)))
    (hrest : ∀ k, src.getNode k = none → merged f ∅ (node.under k) = ∅)
    (hf : f false false = false) (hfits : Fits f dest node) :
    Merged f val dest node (src.eachNode g) := by
  have hempty : ∀ k, src.getNode k = none → dest.ensureNode k = empty := by
    intro k hget
    rw [← hsame.kids, ensureNode, hget, Option.getD_none]
  refine loop_merged (fun k => (dest.ensureNode k).entries) (hsame.nodes.trans hn) ?_ ?_ ?_
    hf hfits
  · rw [hsame.sz, hdest.sz_eq_sum]
  · intro k c hget
    rw [← ensureNode_eq_of_some hget, hsame.kids]
    exact hround k
  · intro k hget
    rw [hempty k hget, Node.under, hempty k hget]
    exact ⟨rfl, hrest k hget⟩

theorem Round.keep (hf : ∀ x, f x false = x) (h : Sound val nd) :
    Round f val nd empty nd.entries (nd, 0) := by
  refine ⟨h, by simp [hf], fun k => ?_, by simp [entries]⟩
  rw [under_null (hasNodes_empty (α := α)), merged_empty_right hf]

@[simp]
theorem sz_freeEmpty (nd : Node α) : nd.freeEmpty.sz = nd.sz := by
  rw [freeEmpty]
  by_cases h : nd.sz = 0
  · rw [if_pos h, h]
    rfl
  · rw [if_neg h]

/-- A call merges the entries below a node into every node which has some. -/
def Merges (f : Bool → Bool → Bool) (val : List Key → α) (node : Node α)
    (rec : Node α → Node α) : Prop :=
  ∀ dest, Sound val dest → dest.hasNodes = true → Fits f dest node →
    Sound val (rec dest) ∧ (∀ k, (rec dest).under k = merged f (dest.under k) (node.under k)) ∧
      (rec dest).data = dest.data

theorem mem_or {a b : Option α} {x y : α} (ha : ∀ x ∈ a, x = y) (hb : ∀ x ∈ b, x = y)
    (h : x ∈ a.or b) : x = y := by
  cases a with
  | none => exact hb x h
  | some z => exact ha x h

section Rounds

variable {rec : Node α → Node α} {destNd nodeNd : Node α} {d : Option α} {c old : ℤ}

theorem Merges.round (hrec : Merges f val nodeNd rec) (hd : Sound val destNd)
    (hdn : destNd.hasNodes) (hfits : Fits f destNd nodeNd) (hval : ∀ a ∈ d, a = val [])
    (hsome : d.isSome = f destNd.data.isSome nodeNd.data.isSome)
    (hc : c = one d.isSome + (rec (destNd.withData d)).sz - old) :
    Round f val destNd nodeNd old (rec (destNd.withData d), c) := by
  obtain ⟨hs, hu, hdat⟩ := hrec _ (hd.withData hval) (by simpa using hdn)
    (by simpa only [Fits, under_withData] using hfits)
  refine ⟨hs, ?_, fun k => by simpa using hu k, ?_⟩
  · rw [hdat, data_withData, hsome]
  · rw [hc, hdat, data_withData]

theorem Round.withData (hnd : Sound val nd) (hval : ∀ a ∈ d, a = val [])
    (hsome : d.isSome = f destNd.data.isSome nodeNd.data.isSome)
    (hunder : ∀ k, nd.under k = merged f (destNd.under k) (nodeNd.under k))
    (hc : c = one d.isSome + nd.sz - old) : Round f val destNd nodeNd old (nd.withData d, c) := by
  refine ⟨hnd.withData hval, by simpa using hsome, fun k => ?_, by simpa using hc⟩
  rw [under_withData, hunder]

end Rounds

section Loops

variable (op : Node α → Node α → Node α) (pre post : Node α → Node α)
  (src : Node α → Node α → Node α) (rd : (Node α → Node α) → Node α → Node α → Node α × ℤ)
  (skip : Node α → Node α × ℤ)

/-- A loop over the child nodes, by what one round and the end of the loop do. The round for a
child which the other node does not have is `skip`. -/
theorem merges_of_round
    (hsingle : ∀ d s key nd dest, op (.single d s key nd) dest =
      pre ((src (.single d s key nd) dest).eachNode fun i destNd =>
        if key = i then rd (op nd) destNd nd else skip destNd))
    (hfull : ∀ d s nds dest, op (.full d s nds) dest =
      pre ((src (.full d s nds) dest).eachNode fun i destNd => rd (op (nds i)) destNd (nds i)))
    (hsrc : ∀ node dest, Same (src node dest) dest)
    (hrest : ∀ node dest k, dest.hasNodes → node.hasNodes →
      (src node dest).getNode k = none → merged f ∅ (node.under k) = ∅)
    (hround : ∀ val destNd nodeNd, Sound val destNd → Sound val nodeNd → Fits f destNd nodeNd →
      (nodeNd.hasNodes → Merges f val nodeNd fun d => post (op nodeNd d)) →
      Round f val destNd nodeNd destNd.entries (rd (op nodeNd) destNd nodeNd))
    (hskip : ∀ val destNd, Sound val destNd → Fits f destNd empty →
      Round f val destNd empty destNd.entries (skip destNd))
    (hend : ∀ val dest node nd, Sound val dest → dest.hasNodes →
      Merged f val dest node nd → nd.data = dest.data → Sound val (post (pre nd)) ∧
        (∀ k, (post (pre nd)).under k = merged f (dest.under k) (node.under k)) ∧
        (post (pre nd)).data = dest.data)
    (hf : f false false = false) (hnode : Sound val node)
    (hn : node.hasNodes) : Merges f val node fun d => post (op node d) := by
  have hdata : ∀ node dest (g : Key → Node α → Node α × ℤ),
      ((src node dest).eachNode g).data = dest.data := by
    intro node dest g
    rw [eachNode, data_loop, (hsrc node dest).data]
  induction node generalizing val with
  | null d s => cases hn
  | single d s key nd ih =>
    intro dest hdest hdn hfits
    have hnd := hnode.kids (k := key) (if_pos rfl)
    simp only [hsingle]
    refine hend _ _ _ _ hdest hdn (eachNode_merged (hsrc _ dest) hdest hdn ?_
      (fun k => hrest _ dest k hdn hn) hf hfits) (hdata _ _ _)
    intro k
    have hfit := fits_ensureNode hf hfits k
    by_cases hkey : key = k
    · subst hkey
      rw [ensureNode_single] at hfit ⊢
      rw [if_pos rfl]
      exact hround _ _ _ (hdest.ensureNode key) hnd hfit (ih hnd)
    · rw [ensureNode_single_ne hkey] at hfit ⊢
      rw [if_neg hkey]
      exact hskip _ _ (hdest.ensureNode k) hfit
  | full d s nds ih =>
    intro dest hdest hdn hfits
    simp only [hfull]
    refine hend _ _ _ _ hdest hdn (eachNode_merged (hsrc _ dest) hdest hdn ?_
      (fun k => hrest _ dest k hdn hn) hf hfits) (hdata _ _ _)
    intro k
    have hnd := hnode.kids (k := k) rfl
    exact hround _ _ _ (hdest.ensureNode k) hnd (fits_ensureNode hf hfits k) (ih k hnd)

theorem Merged.freeEmpty {dest : Node α} {d : Option α} (h : Merged f val dest node nd)
    (hdata : nd.data = d) (hd : ∀ a ∈ d, a = val []) : Sound val nd.freeEmpty ∧
      (∀ k, nd.freeEmpty.under k = merged f (dest.under k) (node.under k)) ∧
      nd.freeEmpty.data = d := by
  refine ⟨h.summed.freeEmpty (by rwa [hdata]), fun k => ?_, by rw [data_freeEmpty, hdata]⟩
  rw [under_freeEmpty h.summed.sz, h.under]

end Loops

section Union

variable {copy rec : Node α → Node α} {destNd nodeNd : Node α}

theorem unionNd_round (hd : Sound val destNd) (he : Sound val nodeNd) (hcopy : copy nodeNd = nodeNd)
    (hfits : Fits or destNd nodeNd) (hrec : nodeNd.hasNodes → Merges or val nodeNd rec) :
    Round or val destNd nodeNd destNd.entries (unionNd copy rec destNd nodeNd) := by
  -- the data after the round, and by how much their number grows
  have hdata : (if nodeNd.data.isSome && destNd.data.isNone then destNd.withData nodeNd.data
      else destNd) = destNd.withData (destNd.data.or nodeNd.data) := by
    cases hx : destNd.data <;> cases hy : nodeNd.data <;> simp [withData_eq_self hx]
  have hone : one (destNd.data.or nodeNd.data).isSome = one destNd.data.isSome +
      one (nodeNd.data.isSome && destNd.data.isNone) := by
    cases destNd.data <;> cases nodeNd.data <;> rfl
  have hsome : (destNd.data.or nodeNd.data).isSome =
      (destNd.data.isSome || nodeNd.data.isSome) := by
    cases destNd.data <;> rfl
  have hval : ∀ a ∈ destNd.data.or nodeNd.data, a = val [] := fun a ha => mem_or hd.data he.data ha
  rw [unionNd, hdata]
  generalize destNd.data.or nodeNd.data = d at *
  generalize one (nodeNd.data.isSome && destNd.data.isNone) = z at *
  cases hn : nodeNd.hasNodes with
  | false =>
    refine Round.withData hd hval hsome (fun k => ?_) (by simp [entries, hone])
    rw [under_null hn, merged_empty_right (by simp)]
  | true =>
    cases hdn : destNd.hasNodes with
    | false =>
      simp only [hasNodes_withData, hdn, hcopy, data_withData, if_true, Bool.false_eq_true,
        if_false]
      have hsz : destNd.sz = 0 := hd.sz.trans (count_null hdn)
      refine Round.withData he hval hsome (fun k => ?_) (by simp [entries, hone, hsz]; ring)
      rw [under_null hdn, merged_empty_left (by simp)]
    | true =>
      simp only [hasNodes_withData, hdn, if_true]
      refine (hrec hn).round hd hdn hfits hval hsome ?_
      rw [hone, entries, sz_withData]
      ring

/-- What grows is not empty afterwards. -/
theorem Merged.sound_of_le {dest : Node α} (h : Merged f val dest node nd)
    (hdata : ∀ a ∈ nd.data, a = val []) (hdest : 0 < dest.count)
    (hle : ∀ P Q : Finset (List Key), P ⊆ merged f P Q) : Sound val nd := by
  refine h.summed.sound hdata fun _ => Nat.lt_of_lt_of_le hdest ?_
  rw [count, count]
  refine Finset.sum_le_sum fun k _ => ?_
  rw [h.under]
  exact Finset.card_le_card (hle _ _)

theorem unionWith_merges (hcopy : ∀ val (nd : Node α), Sound val nd → copy nd = nd)
    (hnode : Sound val node) (hn : node.hasNodes) : Merges or val node (node.unionWith copy) := by
  refine merges_of_round (unionWith copy) id id growAs (unionNd copy) (fun destNd => (destNd, 0))
    (fun _ _ _ _ _ => rfl) (fun _ _ _ _ => rfl) same_growAs ?_ ?_ ?_ ?_ rfl hnode hn
  · intro node dest k hdn hn hget
    rw [(under_of_growAs hdn hn hget).2]
    rfl
  · exact fun val _ nodeNd hd he hfits => unionNd_round hd he (hcopy val nodeNd he) hfits
  · exact fun _ _ hd _ => Round.keep (by simp) hd
  · intro val dest node nd hdest hdn h hdata
    refine ⟨h.sound_of_le ?_ (hdest.sz_pos hdn) (by simp [merged_or]), h.under, hdata⟩
    rw [hdata]
    exact hdest.data

end Union

section Difference

variable {rec : Node α → Node α} {destNd nodeNd : Node α}

abbrev minus (a b : Bool) : Bool := a && !b

theorem differenceNd_round (hd : Sound val destNd) (hfits : Fits minus destNd nodeNd)
    (hrec : nodeNd.hasNodes → Merges minus val nodeNd fun d => (rec d).freeEmpty) :
    Round minus val destNd nodeNd destNd.entries (differenceNd rec destNd nodeNd) := by
  obtain ⟨d, hdata, hone, hsome, hval⟩ : ∃ d : Option α,
      (if nodeNd.data.isSome && destNd.data.isSome then destNd.withData none else destNd) =
        destNd.withData d ∧
      one d.isSome = one destNd.data.isSome - one (nodeNd.data.isSome && destNd.data.isSome) ∧
      d.isSome = (destNd.data.isSome && !nodeNd.data.isSome) ∧ ∀ a ∈ d, a = val [] := by
    cases hx : destNd.data with
    | none => exact ⟨none, by simp [withData_eq_self hx], by cases nodeNd.data <;> rfl,
        rfl, by simp⟩
    | some x =>
      cases nodeNd.data with
      | none => exact ⟨some x, by simp [withData_eq_self hx], rfl, rfl, hx ▸ hd.data⟩
      | some y => exact ⟨none, rfl, rfl, rfl, by simp⟩
  rw [differenceNd, hdata]
  generalize one (nodeNd.data.isSome && destNd.data.isSome) = z at *
  by_cases hn : nodeNd.hasNodes = true ∧ destNd.hasNodes = true
  · simp only [hasNodes_withData, hn.1, hn.2, Bool.and_true, if_true]
    refine (hrec hn.1).round hd hn.2 hfits hval hsome ?_
    rw [hone, entries, sz_freeEmpty, sz_withData]
    ring
  · have hand : (nodeNd.hasNodes && destNd.hasNodes) = false := by
      simpa using hn
    simp only [hasNodes_withData, hand, Bool.false_eq_true, if_false]
    refine Round.withData hd hval hsome (fun k => ?_) (by simp [entries, hone])
    rw [merged_diff]
    cases hdn : destNd.hasNodes with
    | false => simp [under_null hdn]
    | true => simp [under_null (show nodeNd.hasNodes = false by simpa [hdn] using hand)]

theorem removeAll_merges (hnode : Sound val node) (hn : node.hasNodes) :
    Merges minus val node fun d => (node.removeAll d).freeEmpty := by
  refine merges_of_round removeAll id freeEmpty (fun _ => id) differenceNd
    (fun destNd => (destNd, 0)) (fun _ _ _ _ _ => rfl) (fun _ _ _ _ => rfl) (fun _ => same_self) ?_
      ?_ ?_ ?_ rfl hnode hn
  · simp [merged_diff]
  · exact fun _ _ _ hd _ hfits => differenceNd_round hd hfits
  · exact fun _ _ hd _ => Round.keep (by simp) hd
  · exact fun _ _ _ _ hdest _ h hdata => h.freeEmpty hdata hdest.data

end Difference

section Intersection

variable {rec : Node α → Node α} {destNd nodeNd : Node α}

theorem intersectionNd_round (hd : Sound val destNd) (hfits : Fits and destNd nodeNd)
    (hrec : nodeNd.hasNodes → Merges and val nodeNd rec) :
    Round and val destNd nodeNd destNd.entries (intersectionNd rec destNd nodeNd) := by
  obtain ⟨d, hdata, hone, hsome, hval⟩ : ∃ d : Option α,
      (if nodeNd.data.isNone && destNd.data.isSome then destNd.withData none else destNd) =
        destNd.withData d ∧
      one d.isSome = one destNd.data.isSome - one (nodeNd.data.isNone && destNd.data.isSome) ∧
      d.isSome = (destNd.data.isSome && nodeNd.data.isSome) ∧ ∀ a ∈ d, a = val [] := by
    cases hx : destNd.data with
    | none => exact ⟨none, by simp [withData_eq_self hx], by cases nodeNd.data <;> rfl,
        rfl, by simp⟩
    | some x =>
      cases nodeNd.data with
      | none => exact ⟨none, rfl, rfl, rfl, by simp⟩
      | some y => exact ⟨some x, by simp [withData_eq_self hx], rfl, rfl, hx ▸ hd.data⟩
  rw [intersectionNd, hdata]
  generalize one (nodeNd.data.isNone && destNd.data.isSome) = z at *
  cases hdn : destNd.hasNodes with
  | false =>
    simp only [hasNodes_withData, hdn, Bool.false_eq_true, if_false]
    refine Round.withData hd hval hsome (fun k => ?_) (by simp [entries, hone])
    simp [merged_and, under_null hdn]
  | true =>
    cases hn : nodeNd.hasNodes with
    | false =>
      simp only [hasNodes_withData, hdn, if_true, Bool.false_eq_true, if_false, data_withData]
      refine ⟨Sound.null hval, hsome, fun k => ?_, ?_⟩
      · rw [under_null rfl, merged_and, under_null hn, Finset.inter_empty]
      · simp only [data_null, sz_null, sz_withData, entries, hone, Nat.cast_zero]
        ring
    | true =>
      simp only [hasNodes_withData, hdn, if_true]
      refine (hrec hn).round hd hdn hfits hval hsome ?_
      rw [hone, entries, sz_withData]
      ring

theorem keepAll_merges (hnode : Sound val node) (hn : node.hasNodes) :
    Merges and val node node.keepAll := by
  refine merges_of_round keepAll freeEmpty id (fun _ => id) intersectionNd
    (fun destNd => intersectionNd id destNd empty) (fun _ _ _ _ _ => rfl) (fun _ _ _ _ => rfl)
    (fun _ => same_self) ?_ ?_ ?_ ?_ rfl hnode hn
  · simp [merged_and]
  · exact fun _ _ _ hd _ hfits => intersectionNd_round hd hfits
  · exact fun _ _ hd hfits => intersectionNd_round hd hfits nofun
  · exact fun _ _ _ _ hdest _ h hdata => h.freeEmpty hdata hdest.data

end Intersection

section Symmdiff

variable {rec : Node α → Node α} {destNd nodeNd : Node α}

theorem symmdiffNd_round (hd : Sound val destNd) (he : Sound val nodeNd)
    (hfits : Fits xor destNd nodeNd) (hrec : nodeNd.hasNodes → Merges xor val nodeNd rec) :
    Round xor val destNd nodeNd destNd.entries (symmdiffNd rec destNd nodeNd) := by
  obtain ⟨d, hdata, hone, hsome, hval⟩ : ∃ d : Option α,
      (if nodeNd.data.isSome then
          destNd.withData (if destNd.data.isSome then none else nodeNd.data)
        else destNd) = destNd.withData d ∧
      one d.isSome = one destNd.data.isSome +
        (if nodeNd.data.isSome then (if destNd.data.isSome then -1 else 1) else 0) ∧
      d.isSome = (destNd.data.isSome ^^ nodeNd.data.isSome) ∧ ∀ a ∈ d, a = val [] := by
    cases hy : nodeNd.data with
    | none =>
      exact ⟨destNd.data, by simp [withData_eq_self rfl], by simp, by simp, hd.data⟩
    | some y =>
      cases destNd.data with
      | none => exact ⟨some y, rfl, rfl, rfl, hy ▸ he.data⟩
      | some x => exact ⟨none, rfl, rfl, rfl, by simp⟩
  rw [symmdiffNd, hdata]
  generalize (if nodeNd.data.isSome then (if destNd.data.isSome then -1 else 1) else 0 : ℤ) = z at *
  cases hn : nodeNd.hasNodes with
  | false =>
    refine Round.withData hd hval hsome (fun k => ?_) (by simp [entries, hone])
    rw [under_null hn, merged_empty_right (by simp)]
  | true =>
    cases hdn : destNd.hasNodes with
    | false =>
      simp only [hasNodes_withData, hdn, data_withData, if_true, Bool.false_eq_true, if_false]
      have hsz : destNd.sz = 0 := hd.sz.trans (count_null hdn)
      refine Round.withData he hval hsome (fun k => ?_) (by simp [entries, hone, hsz]; ring)
      rw [under_null hdn, merged_empty_left (by simp)]
    | true =>
      simp only [hasNodes_withData, hdn, if_true]
      refine (hrec hn).round hd hdn hfits hval hsome ?_
      rw [hone, entries, sz_withData]
      ring

theorem toggleAll_merges (hnode : Sound val node) (hn : node.hasNodes) :
    Merges xor val node node.toggleAll := by
  refine merges_of_round toggleAll freeEmpty id growAs symmdiffNd (fun destNd => (destNd, 0))
    (fun _ _ _ _ _ => rfl) (fun _ _ _ _ => rfl) same_growAs ?_ ?_ ?_ ?_ rfl hnode hn
  · intro node dest k hdn hn hget
    rw [(under_of_growAs hdn hn hget).2]
    rfl
  · exact fun _ _ _ hd he hfits => symmdiffNd_round hd he hfits
  · exact fun _ _ hd _ => Round.keep (by simp) hd
  · exact fun _ _ _ _ hdest _ h hdata => h.freeEmpty hdata hdest.data

end Symmdiff

end ThingsDB.Imap.Node
