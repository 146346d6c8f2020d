import ThingsDB.Imap.Finite

/-!
# Maps which can be built

Every map which is built with fewer than `2 ^ 32` ids is the finite map of its ids, with the right
counts in all nodes. With more ids the count of a node starts again at zero.
-/

namespace ThingsDB.Imap

open Paths Node Finset

variable {α : Type}

namespace Node

def walk : List Key → Node α → Option (Node α)
  | [], nd => some nd
  | k :: ks, nd => (nd.getNode k).bind (walk ks)

theorem Sound.walk {val : List Key → α} {nd c : Node α} {p : List Key} (h : Sound val nd)
    (hc : nd.walk p = some c) : Sound (fun q => val (p ++ q)) c := by
  induction p generalizing nd val with
  | nil =>
    cases hc
    exact h
  | cons k p ih =>
    obtain ⟨kid, hget, hwalk⟩ := Option.bind_eq_some_iff.mp hc
    exact ih (h.kids hget) hwalk

end Node

namespace Map

def HasNode (m : Map α) (nd : Node α) : Prop := ∃ k p, (m.nodes k).walk p = some nd

/-- The maps which can be built, with the ids of the finite map which is built by the same
operations. Equal ids carry equal data, and every map has to meet a condition. A map from which
was moved is as created. -/
inductive Built [DecidableEq α] (val : ℕ → α) (C : Finset ℕ → Prop) : Map α → Finset ℕ → Prop
  | create : Built val C create ∅
  | add {m S} (id : ℕ) : Built val C m S → C (insert id S) →
    Built val C (m.add id (val id)).1 (insert id S)
  | pop {m S} (id : ℕ) : Built val C m S → C (S.erase id) →
    Built val C (m.pop id).1 (S.erase id)
  | unionMove {a b S T} : Built val C a S → Built val C b T → C (S ∪ T) →
    Built val C (a.unionMove b).1 (S ∪ T)
  | unionMake {a b S T} : Built val C a S → Built val C b T → C (S ∪ T) →
    Built val C (a.unionMake b) (S ∪ T)
  | differenceInplace {a b S T} : Built val C a S → Built val C b T → C (S \ T) →
    Built val C (a.differenceInplace b) (S \ T)
  | differenceMake {a b S T} : Built val C a S → Built val C b T → C (S \ T) →
    Built val C (a.differenceMake b) (S \ T)
  | intersectionInplace {a b S T} : Built val C a S → Built val C b T → C (S ∩ T) →
    Built val C (a.intersectionInplace b) (S ∩ T)
  | intersectionMake {a b S T} : Built val C a S → Built val C b T → C (S ∩ T) →
    Built val C (a.intersectionMake b) (S ∩ T)
  | symmdiffMove {a b S T} : Built val C a S → Built val C b T → C (symmDiff S T) →
    Built val C (a.symmdiffMove b).1 (symmDiff S T)
  | symmdiffMake {a b S T} : Built val C a S → Built val C b T → C (symmDiff S T) →
    Built val C (a.symmdiffMake b) (symmDiff S T)

/-- The ids of a map can be counted in the 32 bits of a node. -/
def Small (S : Finset ℕ) : Prop := S.card < 2 ^ 32

variable [DecidableEq α] {val : ℕ → α} {m : Map α} {S : Finset ℕ}

theorem Built.cond {C : Finset ℕ → Prop} (hC : C ∅) (h : Built val C m S) : C S := by
  cases h <;> assumption

theorem Built.mono {C D : Finset ℕ → Prop} (hCD : ∀ S, C S → D S) (h : Built val C m S) :
    Built val D m S := by
  induction h with
  | create => exact .create
  | add id _ hC ih => exact ih.add id (hCD _ hC)
  | pop id _ hC ih => exact ih.pop id (hCD _ hC)
  | unionMove _ _ hC iha ihb => exact iha.unionMove ihb (hCD _ hC)
  | unionMake _ _ hC iha ihb => exact iha.unionMake ihb (hCD _ hC)
  | differenceInplace _ _ hC iha ihb => exact iha.differenceInplace ihb (hCD _ hC)
  | differenceMake _ _ hC iha ihb => exact iha.differenceMake ihb (hCD _ hC)
  | intersectionInplace _ _ hC iha ihb => exact iha.intersectionInplace ihb (hCD _ hC)
  | intersectionMake _ _ hC iha ihb => exact iha.intersectionMake ihb (hCD _ hC)
  | symmdiffMove _ _ hC iha ihb => exact iha.symmdiffMove ihb (hCD _ hC)
  | symmdiffMake _ _ hC iha ihb => exact iha.symmdiffMake ihb (hCD _ hC)

theorem Built.small (h : Built val Small m S) : S.card < 2 ^ 32 :=
  h.cond (C := Small) (by simp [Small])

theorem Built.is (h : Built val Small m S) : Is val m S := by
  induction h with
  | create => exact is_create
  | add id _ hC ih => exact ih.add id hC
  | pop id hb _ ih => exact (ih.pop id hb.small).1
  | unionMove _ _ hC iha ihb => exact iha.unionMove ihb hC
  | unionMake _ _ hC iha ihb => exact iha.unionMake ihb hC
  | differenceInplace ha _ _ iha ihb => exact iha.differenceInplace ihb ha.small
  | differenceMake ha _ _ iha ihb => exact iha.differenceMake ihb ha.small
  | intersectionInplace ha _ _ iha ihb => exact iha.intersectionInplace ihb ha.small
  | intersectionMake ha _ _ iha ihb => exact iha.intersectionMake ihb ha.small
  | symmdiffMove _ _ hC iha ihb => exact iha.symmdiffMove ihb hC
  | symmdiffMake _ _ hC iha ihb => exact iha.symmdiffMake ihb hC

/-- The nodes of a map count the entries below them, and have an array of nodes iff there are
some. -/
def Counted (m : Map α) : Prop :=
  ∀ nd, m.HasNode nd → nd.sz = nd.count ∧ (nd.hasNodes = true ↔ 0 < nd.sz)

omit [DecidableEq α] in
theorem Is.counted (h : Is val m S) : m.Counted := by
  rintro nd ⟨k, p, hwalk⟩
  have hnd := (h.sound k).walk hwalk
  exact ⟨hnd.sz, hnd.nodes⟩

/-- Operations in place and into a new map find the same. -/
def Alike (a b : Map α) : Prop :=
  (∀ id, (a.unionMove b).1.get id = (a.unionMake b).get id) ∧
  (∀ id, (a.differenceInplace b).get id = (a.differenceMake b).get id) ∧
  (∀ id, (a.intersectionInplace b).get id = (a.intersectionMake b).get id) ∧
  (∀ id, (a.symmdiffMove b).1.get id = (a.symmdiffMake b).get id)

theorem Built.alike {b : Map α} {T : Finset ℕ} (ha : Built val Small m S)
    (hb : Built val Small b T) (hST : (S ∪ T).card < 2 ^ 32) : Alike m b := by
  have hxor : (symmDiff S T).card < 2 ^ 32 :=
    Nat.lt_of_le_of_lt (card_le_card symmDiff_le_sup) hST
  refine ⟨fun id => ?_, fun id => ?_, fun id => ?_, fun id => ?_⟩
  · rw [(ha.is.unionMove hb.is hST).get_eq, (ha.is.unionMake hb.is hST).get_eq]
  · rw [(ha.is.differenceInplace hb.is ha.small).get_eq,
      (ha.is.differenceMake hb.is ha.small).get_eq]
  · rw [(ha.is.intersectionInplace hb.is ha.small).get_eq,
      (ha.is.intersectionMake hb.is ha.small).get_eq]
  · rw [(ha.is.symmdiffMove hb.is hxor).get_eq, (ha.is.symmdiffMake hb.is hxor).get_eq]

/-- A map which was built without ever having `2 ^ 32` ids is a finite map with the right
counts. -/
theorem built_is_finite_map (h : Built val Small m S) :
    (∀ id, m.get id = if id ∈ S then some (val id) else none) ∧ m.n = S.card ∧ m.Counted ∧
      ∀ b T, Built val Small b T → (S ∪ T).card < 2 ^ 32 → Alike m b :=
  ⟨h.is.get_eq, h.is.n, h.is.counted, fun _ _ => h.alike⟩

def ofIds (val : ℕ → α) : List ℕ → Map α
  | [] => create
  | id :: ids => ((ofIds val ids).add id (val id)).1

theorem built_ofIds (val : ℕ → α) (ids : List ℕ) (h : ids.length < 2 ^ 32) :
    Built val Small (ofIds val ids) ids.toFinset := by
  induction ids with
  | nil => exact .create
  | cons id ids ih =>
    rw [List.toFinset_cons]
    refine (ih (Nat.lt_of_succ_lt h)).add id ?_
    rw [Small, ← List.toFinset_cons]
    exact Nat.lt_of_le_of_lt (List.toFinset_card_le _) h

/-- Two maps with a node in common, one of them with all child nodes there. -/
theorem union_is_finite_map : ∃ m : Map Unit,
    (∀ id, m.get id = if id ∈ ({64, 32, 33} : Finset ℕ) then some () else none) ∧ m.n = 3 ∧
      m.Counted := by
  have ha := built_ofIds (fun _ => ()) [64, 32] (by decide)
  have hb := built_ofIds (fun _ => ()) [33] (by decide)
  obtain ⟨hget, hn, hcounted, -⟩ := built_is_finite_map (ha.unionMove hb (by simp [Small]))
  exact ⟨_, hget, hn, hcounted⟩

/-- Ids all of which are below the first node. -/
def below (n : ℕ) : Finset ℕ := (Finset.range n).image fun i => 32 * (i + 1)

theorem card_below (n : ℕ) : (below n).card = n := by
  rw [below, card_image_of_injective, card_range]
  intro i j h
  simp only at h
  omega

theorem below_succ (n : ℕ) : below (n + 1) = insert (32 * (n + 1)) (below n) := by
  rw [below, range_add_one, image_insert, below]

theorem exists_built_below (val : ℕ → α) (n : ℕ) (hn : n < 2 ^ 32) :
    ∃ m, Built val Small m (below n) := by
  induction n with
  | zero => exact ⟨create, .create⟩
  | succ n ih =>
    obtain ⟨m, hm⟩ := ih (by omega)
    rw [below_succ]
    refine ⟨_, hm.add _ ?_⟩
    rw [Small, ← below_succ, card_below]
    exact hn

theorem keys_mul (i : ℕ) : keys (32 * (i + 1)) = 0 :: keys i := by
  have hdiv : 32 * (i + 1) / 32 = i + 1 := by omega
  have hmod : Fin.ofNat 32 (32 * (i + 1)) = 0 := by
    apply Fin.ext
    simp [Fin.ofNat]
  rw [keys, Bijective.digits_eq, hdiv, if_neg (Nat.succ_ne_zero i), hmod, Nat.add_sub_cancel, keys]

theorem part_below {n : ℕ} {k : Key} (hk : k ≠ 0) : part (below n) k = ∅ := by
  rw [eq_empty_iff_forall_notMem]
  intro ks hks
  rw [mem_part, below, mem_image] at hks
  obtain ⟨i, -, hi⟩ := hks
  have hkeys := keys_value k ks
  rw [← hi, keys_mul] at hkeys
  exact hk (List.cons.inj hkeys).1.symm

omit [DecidableEq α] in
theorem sz_below {n : ℕ} (h : Is val m (below n)) : (m.nodes 0).sz = n := by
  have hsum := card_eq_sum_part (below n)
  rw [card_below, sum_eq_single 0 (fun k _ hk => by rw [part_below hk]; rfl) (by simp),
    ← h.paths, card_paths, ← (h.sound 0).sz] at hsum
  have hdata : (m.nodes 0).data.isSome = false := by
    rw [← Bool.not_eq_true, ← nil_mem_paths, h.paths, mem_part, below, mem_image]
    rintro ⟨i, -, hi⟩
    simp [Bijective.value] at hi
  rw [hdata, if_neg (by simp), Nat.zero_add] at hsum
  exact hsum.symm

omit [DecidableEq α] in
/-- The entry with which there are `2 ^ 32` below a node sets its count to zero. -/
theorem not_counted_of_below {n : ℕ} (h : Is val m (below n)) (hn : n + 1 = 2 ^ 32) (x : α) :
    ¬ (m.add (32 * (n + 1)) x).1.Counted := by
  intro hcounted
  have hnew := h.add_snd (32 * (n + 1)) x
  have hfresh : 32 * (n + 1) ∉ below n := by
    intro hmem
    have hcard := card_below (n + 1)
    rw [below_succ, insert_eq_of_mem hmem, card_below] at hcard
    omega
  obtain ⟨k, ks, -, hkeys⟩ := Bijective.exists_value (b := 32) n
  rw [add, keys_mul, keys, hkeys] at hnew
  rw [add, keys_mul, keys, hkeys] at hcounted
  obtain ⟨-, hnodes⟩ := hcounted _ ⟨0, [], rfl⟩
  simp only [Node.add, hfresh, not_false_eq_true, decide_true] at hnew
  simp only [Function.update_self, Node.add, sz_setNode, hnew, sz_below h] at hnodes
  have hzero : wrap 32 ((n : ℤ) + one true) = 0 := by
    have hz : (n : ℤ) + one true = 2 ^ 32 := by
      rw [one, if_pos rfl]
      exact_mod_cast hn
    rw [hz, wrap, Int.emod_self, Int.toNat_zero]
  have hroom := getNode_room (hasNodes_of_sz (h.sound 0)) k
  rw [hzero] at hnodes
  have hnull := getNode_null (Bool.eq_false_iff.mpr fun hn => Nat.lt_irrefl 0 (hnodes.mp hn)) k
  rw [getNode_setNode hroom, if_pos rfl] at hnull
  cases hnull

/-- The count of a node starts again if there are `2 ^ 32` entries below it. -/
theorem sz_overflows : ∃ (m : Map Unit) (S : Finset ℕ), Built (fun _ => ()) (fun _ => True) m S ∧
    ¬ m.Counted := by
  obtain ⟨m, hm⟩ := exists_built_below (fun _ => ()) (2 ^ 32 - 1) (by omega)
  exact ⟨_, _, (hm.mono fun _ _ => trivial).add (32 * (2 ^ 32 - 1 + 1)) trivial,
    not_counted_of_below hm.is (by omega) ()⟩

end Map

end ThingsDB.Imap
