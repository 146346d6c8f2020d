import ThingsDB.Smap.Cstr
import ThingsDB.Smap.Items

/-!
# The string map

`smap_t` and its calls. The map is a node without a part of the keys and without a size. The number
of keys is kept in 32 bits.
-/

namespace ThingsDB.Smap

open List

variable {α : Type}

/-- `smap_t`; the first fields are those of a node. -/
structure Map (α : Type) where
  n : ℕ
  offset : ℕ
  sz : ℕ
  alloc : Bool
  nodes : ℕ → Node α
  data : Option α

variable {key ks : List Byte}

namespace Map

def create : Map α := ⟨0, 255, 0, false, fun _ => .null, none⟩

def toNode (s : Map α) : Node α := .node [] s.data 0 s.offset s.sz s.alloc s.nodes

def withNodes (s : Map α) (nd : Node α) : Map α :=
  match nd with
  | .null => s
  | .node _ _ _ offset sz alloc nodes =>
    { s with offset := offset, sz := sz, alloc := alloc, nodes := nodes }

/-- `smap_add` and `smap_addn`; whether the key is new, `SMAP_ERR_EXIST` if not. -/
def addWith (cstr : Bool) (s : Map α) (key : List Byte) (a : α) : Option (Map α × Bool) :=
  match key with
  | [] =>
    some (if s.data.isSome then (s, false)
      else ({ s with n := (s.n + 1) % 2 ^ 32, data := some a }, true))
  | k :: ks =>
    let s := s.withNodes (s.toNode.resize (k / 32))
    ((s.nodes (k - s.offset * 32)).add cstr a ks).map fun r =>
      ({ s.withNodes (s.toNode.setKid k r.1) with n := if r.2 then (s.n + 1) % 2 ^ 32 else s.n },
        r.2)

/-- `smap_getn`, and `smap_get` for a string which is not empty. -/
def getWith (cstr : Bool) (s : Map α) (key : List Byte) : Option (Option α) :=
  match key with
  | [] => some s.data
  | k :: ks =>
    if Node.covers s.offset s.sz true k then (s.nodes (k - s.offset * 32)).get cstr ks
    else some none

/-- `--smap->n` -/
def dec (n : ℕ) : ℕ := (n + (2 ^ 32 - 1)) % 2 ^ 32

def freed (s : Map α) : Map α := { s with n := 0, alloc := false, sz := 0, nodes := fun _ => .null }

/-- `smap_pop` and `smap_popn` -/
def popWith (cstr : Bool) (s : Map α) (key : List Byte) : Option (Map α × Option α) :=
  match key with
  | [] =>
    some (if s.data.isSome then ({ s with n := dec s.n, data := none }, s.data) else (s, none))
  | k :: ks =>
    if !Node.covers s.offset s.sz true k then some (s, none)
    else if (s.nodes (k - s.offset * 32)).isNull then some (s, none)
    else
      ((s.nodes (k - s.offset * 32)).pop cstr ks).map fun r =>
        let s := s.withNodes (s.toNode.setKid k r.1)
        if r.2.isSome then
          if dec s.n = 0 then (s.freed, r.2)
          else ({ s with n := dec s.n }, r.2)
        else (s, r.2)

def items (s : Map α) : List (List Byte × α) :=
  s.data.toList.map (fun a => ([], a)) ++
    (List.range (s.sz * 32)).flatMap fun i =>
      (s.nodes i).items [Fin.ofNat 256 (i + s.offset * 32)]

def values (s : Map α) : List α :=
  s.data.toList ++ (List.range (s.sz * 32)).flatMap fun i => (s.nodes i).values

/-- What `smap_getn` returns. -/
def getn (s : Map α) (key : List Byte) : Option α := (s.getWith false key).join

structure Sound (s : Map α) : Prop where
  array : s.alloc = false → s.sz = 0
  window : s.alloc = true → s.offset + s.sz ≤ 8
  kids : ∀ k, (s.toNode.kid k).Ok

section Sound

variable {s : Map α}

theorem sound_create : Sound (create : Map α) :=
  ⟨fun _ => rfl, nofun, fun _ => .null⟩

/-- The size is zero without an array, so the test for the window is enough. -/
theorem Sound.covers (h : Sound s) (k : Byte) :
    Node.covers s.offset s.sz true k = Node.covers s.offset s.sz s.alloc k := by
  cases halloc : s.alloc with
  | true => rfl
  | false =>
    refine Bool.eq_false_iff.mpr fun hcov => ?_
    obtain ⟨-, hlow, hhigh⟩ := Node.covers_iff.mp hcov
    rw [h.array halloc] at hhigh
    omega

theorem find_nil : s.toNode.find [] = s.data := Node.find_self

theorem find_cons (k : Byte) (ks : List Byte) :
    s.toNode.find (k :: ks) = (s.toNode.kid k).find ks := by
  rw [toNode]
  exact Node.find_append k ks

theorem Sound.count (h : Sound s) (n : ℕ) (d : Option α) : Sound { s with n := n, data := d } :=
  ⟨h.array, h.window, h.kids⟩

theorem find_count (n : ℕ) (d : Option α) (key : List Byte) :
    ({ s with n := n, data := d } : Map α).toNode.find key =
      if key = [] then d else s.toNode.find key := by
  cases key with
  | nil => exact find_nil
  | cons k ks =>
    rw [if_neg (cons_ne_nil k ks), find_cons, find_cons]
    rfl

theorem find_n (n : ℕ) {key : List Byte} :
    ({ s with n := n } : Map α).toNode.find key = s.toNode.find key := rfl

theorem Sound.getWith_eq (h : Sound s) (key : List Byte) :
    s.getWith false key = some (s.toNode.find key) := by
  cases key with
  | nil => rw [getWith, find_nil]
  | cons k ks =>
    rw [getWith, find_cons, h.covers, toNode, Node.kid]
    by_cases hcov : Node.covers s.offset s.sz s.alloc k = true
    · rw [if_pos hcov, if_pos hcov, Node.get_false]
    · rw [if_neg hcov, if_neg hcov]
      rfl

theorem Sound.getn_eq (h : Sound s) : s.getn = s.toNode.find := by
  funext key
  rw [getn, h.getWith_eq, Option.join_some]

theorem Sound.room (h : Sound s) (k : Byte) :
    ∃ offset sz nodes, s.withNodes (s.toNode.resize (k / 32)) =
      ⟨s.n, offset, sz, true, nodes, s.data⟩ ∧
      Sound ⟨s.n, offset, sz, true, nodes, s.data⟩ ∧ Node.covers offset sz true k ∧
      nodes (k - offset * 32) = s.toNode.kid k ∧
      (∀ j, (toNode ⟨s.n, offset, sz, true, nodes, s.data⟩).kid j = s.toNode.kid j) ∧
      ∀ key, (toNode ⟨s.n, offset, sz, true, nodes, s.data⟩).find key = s.toNode.find key := by
  obtain ⟨offset, sz, nodes, hres, hcov, hwin⟩ :=
    Node.resize_node [] s.data 0 s.offset s.sz s.alloc s.nodes k h.window
  have hkid : ∀ j, (Node.node [] s.data 0 offset sz true nodes).kid j = s.toNode.kid j := by
    intro j
    rw [← hres, Node.kid_resize, toNode]
  refine ⟨offset, sz, nodes, ?_, ⟨nofun, fun _ => hwin, fun j => ?_⟩, hcov, ?_, hkid,
    Node.find_congr rfl fun j js => ?_⟩
  · rw [toNode, hres, withNodes]
  · rw [toNode, hkid]
    exact h.kids j
  · rw [← hkid, Node.kid_node_of_covers hcov]
  · rw [hkid, toNode]

/-- Writing an entry of the array, where one key below it is another one. -/
theorem Sound.set (h : Sound s) {k : Byte} (hcov : Node.covers s.offset s.sz s.alloc k)
    {c : Node α} (hc : c.Ok) {x : Option α}
    (hfind : ∀ key, c.find key = if key = ks then x else (s.toNode.kid k).find key) :
    ∃ s', s.withNodes (s.toNode.setKid k c) = s' ∧ s'.n = s.n ∧ Sound s' ∧
      ∀ key, s'.toNode.find key = if key = k :: ks then x else s.toNode.find key := by
  have hset : Node.SetsKid s.toNode (s.withNodes (s.toNode.setKid k c)).toNode k c :=
    fun j => Node.kid_setKid hcov
  refine ⟨_, rfl, rfl, ⟨h.array, h.window, fun j => ?_⟩, Node.find_set hset hfind⟩
  rw [hset]
  split
  · exact hc
  · exact h.kids j

theorem Sound.addWith (h : Sound s) (hkey : key.length ≤ 2 ^ 32) (a : α) :
    ∃ s', s.addWith false key a = some (s', (s.toNode.find key).isNone) ∧ Sound s' ∧
      (s'.n = if (s.toNode.find key).isNone then (s.n + 1) % 2 ^ 32 else s.n) ∧
      ∀ key', s'.toNode.find key' =
        if key' = key then some ((s.toNode.find key).getD a) else s.toNode.find key' := by
  cases key with
  | nil =>
    rw [find_nil, Map.addWith]
    cases hdata : s.data with
    | some b =>
      refine ⟨s, rfl, h, rfl, fun key' => ?_⟩
      by_cases hkey : key' = []
      · rw [if_pos hkey, hkey, find_nil, hdata]
        rfl
      · rw [if_neg hkey]
    | none => exact ⟨_, rfl, h.count _ _, (if_pos rfl).symm, find_count _ _⟩
  | cons k ks =>
    obtain ⟨offset, sz, nodes, hroom, hsound, hcov, hentry, hkids, hsame⟩ := h.room k
    obtain ⟨⟨c, new⟩, hr, hadded⟩ := (h.kids k).add (Nat.lt_of_succ_le hkey) a
    obtain rfl : new = (s.toNode.find (k :: ks)).isNone := by rw [find_cons]; exact hadded.new
    have hfind : ∀ key, c.find key = _ := hadded.find
    rw [← hkids] at hfind
    obtain ⟨s', hs', hn, hsound', hfind'⟩ := hsound.set hcov hadded.ok hfind
    rw [Map.addWith, hroom]
    simp only [hentry, hr, Option.map_some, hs']
    refine ⟨_, rfl, ⟨hsound'.array, hsound'.window, hsound'.kids⟩, rfl, fun key' => ?_⟩
    rw [find_cons, ← hkids, ← hsame]
    exact hfind' key'

theorem sound_freed (s : Map α) : Sound s.freed := ⟨fun _ => rfl, nofun, fun _ => .null⟩

theorem find_freed (hempty : ∀ key, s.toNode.find key = none) (key : List Byte) :
    s.freed.toNode.find key = none := by
  cases key with
  | nil =>
    have hnil := hempty []
    rw [find_nil] at hnil ⊢
    exact hnil
  | cons k ks => exact find_cons k ks

theorem Sound.popWith (h : Sound s) (hfull : key = [] ∨ ¬ Node.Full s.getn key)
    (hlast : (s.toNode.find key).isSome → dec s.n = 0 →
      ∀ key' ≠ key, s.toNode.find key' = none)
    (hshort : ∀ key a, s.toNode.find key = some a → key.length ≤ 2 ^ 32) :
    ∃ s', s.popWith false key = some (s', s.toNode.find key) ∧ Sound s' ∧
      (s'.n = if (s.toNode.find key).isSome then dec s.n else s.n) ∧
      ∀ key', s'.toNode.find key' = if key' = key then none else s.toNode.find key' := by
  have hsame : s.toNode.find key = none → ∀ key', s.toNode.find key' =
      if key' = key then none else s.toNode.find key' := by
    intro hnone key'
    by_cases hkey : key' = key
    · rw [if_pos hkey, hkey, hnone]
    · rw [if_neg hkey]
  cases key with
  | nil =>
    rw [find_nil] at hsame ⊢
    rw [Map.popWith]
    cases hdata : s.data with
    | none => exact ⟨s, rfl, h, rfl, hsame hdata⟩
    | some b => exact ⟨_, rfl, h.count _ _, (if_pos rfl).symm, find_count _ _⟩
  | cons k ks =>
    rw [Map.popWith, h.covers]
    cases hcov : Node.covers s.offset s.sz s.alloc k with
    | false =>
      have hnone : s.toNode.find (k :: ks) = none := by
        rw [find_cons, toNode, Node.kid, hcov]
        rfl
      rw [hnone]
      exact ⟨s, rfl, h, rfl, hsame hnone⟩
    | true =>
      have hk : s.toNode.kid k = s.nodes (k - s.offset * 32) := Node.kid_node_of_covers hcov
      rw [← hk]
      cases hnull : (s.toNode.kid k).isNull with
      | true =>
        have hnone : s.toNode.find (k :: ks) = none := by
          rw [find_cons, Node.isNull_iff.mp hnull, Node.find_null]
        rw [hnone]
        exact ⟨s, rfl, h, rfl, hsame hnone⟩
      | false =>
        have hfull' : ¬ Node.Full (s.toNode.kid k).find ks := by
          intro hall
          refine hfull.elim (cons_ne_nil k ks) fun hnot => hnot fun b => ?_
          obtain ⟨t, ht⟩ := hall b
          refine ⟨t, ?_⟩
          rw [h.getn_eq, cons_append, find_cons]
          exact ht
        have hshort' : Node.Short (s.toNode.kid k).find := fun key a hkey =>
          Nat.lt_of_succ_le (hshort (k :: key) a (by rw [find_cons, hkey]))
        obtain ⟨⟨c, x⟩, hr, hpopped⟩ := (h.kids k).pop hfull' hshort'
        obtain rfl : x = s.toNode.find (k :: ks) := by rw [find_cons]; exact hpopped.found
        obtain ⟨s', hs', hn', hsound, hfind⟩ := h.set hcov hpopped.ok hpopped.find
        simp only [hr, Option.map_some, Bool.not_true, Bool.false_eq_true, if_false, hs', hn']
        cases hsome : (s.toNode.find (k :: ks)).isSome with
        | false => exact ⟨s', rfl, hsound, hn', hfind⟩
        | true =>
          by_cases hn : dec s.n = 0
          · have hempty : ∀ key, s'.toNode.find key = none := by
              intro key
              rw [hfind]
              by_cases hkey : key = k :: ks
              · exact if_pos hkey
              · exact (if_neg hkey).trans (hlast hsome hn key hkey)
            refine ⟨s'.freed, by rw [if_pos rfl, if_pos hn], sound_freed s',
              (if_pos rfl).symm ▸ hn.symm, fun key => ?_⟩
            rw [find_freed hempty, ← hfind, hempty]
          · refine ⟨{ s' with n := dec s.n }, by rw [if_pos rfl, if_neg hn],
              hsound.count _ s'.data, (if_pos rfl).symm, fun key => ?_⟩
            exact (find_n _).trans (hfind key)

theorem Sound.overread (h : Sound s) {k : Byte}
    (hread : ¬ Node.Overread s.getn (k :: ks)) : ¬ Node.Overread (s.toNode.kid k).find ks := by
  rw [h.getn_eq] at hread
  exact fun hkid => hread (Node.overread_kid hkid)

/-- The calls for C strings are those with a length. -/
theorem Sound.cstr (h : Sound s) (hkey : key ≠ []) (hread : ¬ Node.Overread s.getn key) :
    s.getWith true key = s.getWith false key ∧ s.popWith true key = s.popWith false key ∧
      ∀ a, s.addWith true key a = s.addWith false key a := by
  cases key with
  | nil => exact absurd rfl hkey
  | cons k ks =>
    have hread := h.overread hread
    refine ⟨?_, ?_, fun a => ?_⟩
    · rw [Map.getWith, Map.getWith, h.covers]
      by_cases hcov : Node.covers s.offset s.sz s.alloc k = true
      · have hk : s.toNode.kid k = s.nodes (k - s.offset * 32) := Node.kid_node_of_covers hcov
        rw [← hk, (h.kids k).get_cstr hread]
      · rw [if_neg hcov, if_neg hcov]
    · rw [Map.popWith, Map.popWith, h.covers]
      by_cases hcov : Node.covers s.offset s.sz s.alloc k = true
      · have hk : s.toNode.kid k = s.nodes (k - s.offset * 32) := Node.kid_node_of_covers hcov
        rw [← hk, (h.kids k).pop_cstr hread]
      · simp only [hcov, Bool.not_false, if_true]
    · obtain ⟨offset, sz, nodes, hroom, -, -, hentry, -, -⟩ := h.room k
      rw [Map.addWith, Map.addWith, hroom]
      simp only [hentry, (h.kids k).add_cstr hread]

/-- The walk over the map is the walk over its node. -/
theorem Sound.items_eq (h : Sound s) : s.items = s.toNode.items [] := by
  have hnode : s.toNode.items [] = s.data.toList.map (fun a => ([], a)) ++
      if s.alloc then (List.range (s.sz * 32)).flatMap fun i =>
        (s.nodes i).items [Fin.ofNat 256 (i + s.offset * 32)] else [] := rfl
  rw [hnode, items]
  cases halloc : s.alloc with
  | true => rfl
  | false =>
    rw [h.array halloc]
    rfl

theorem values_eq : s.values = s.items.map Prod.snd := by
  rw [values, items, map_append, map_map, map_flatMap]
  congr 1
  · cases s.data <;> rfl
  · exact flatMap_congr fun i _ => Node.values_eq _ _

theorem Sound.listed (h : Sound s) : (s.items.map Prod.fst).Nodup ∧
    ∀ key a, (key, a) ∈ s.items ↔ s.getn key = some a := by
  obtain ⟨hnodup, hmem⟩ : _ ∧ _ := Node.listed_node h.window (fun k => (h.kids k).listed) []
  rw [h.items_eq, h.getn_eq]
  refine ⟨hnodup, fun key a => (hmem key a).trans ?_⟩
  simp only [nil_append, exists_eq_left']
  rfl

end Sound

end Map

end ThingsDB.Smap
