import ThingsDB.Lib.Transition
import ThingsDB.Util.Vec

/-!
# The archive

`ti_archive_push`, which queues a change, and `ti_archive_to_disk`, which writes the queued
changes to a file and removes the files which no node needs any more. Every operation on a file
may fail. A change is its id.
-/

namespace ThingsDB.Archives

open Util Transition List

/-- `ti_archfile_t` with the changes in the file, where `onDisk` tells if there is a file. -/
structure Archfile where
  first : ℕ
  last : ℕ
  changes : List ℕ
  onDisk : Bool
  deriving DecidableEq, Repr

/-- The archive of a node with its stored change ids: `scid` of the node, `lastStored` of the
last full backup, and `nodesScid` of all nodes. The last two fields keep what has been pushed,
and the files which have been removed. -/
structure Archive where
  queue : List ℕ
  archfiles : List Archfile
  scid : ℕ
  lastStored : ℕ
  nodesScid : ℕ
  threshold : ℕ
  pushed : List ℕ
  removed : List Archfile
  deriving DecidableEq, Repr

/-- What fails while the changes are written. -/
inductive Fault where
  /-- `ti_archfile_from_change_ids` -/
  | archfile
  /-- `fopen` -/
  | open
  /-- `msgpack_pack_array` or `mp_pack_bin`, after so many other changes have been shifted. -/
  | pack (n : ℕ)
  /-- `vec_push` -/
  | push
  /-- `fclose` -/
  | close
  deriving DecidableEq, Repr

namespace Archive

variable (s : Archive)

def push (id : ℕ) : Archive :=
  { s with
    queue := if s.scid < id then s.queue ++ [id] else s.queue
    pushed := s.pushed ++ [id] }

/-- `archive__to_disk`, which fails when the first value is false. The changes are shifted out
of the queue before they are on disk, and a file which is not complete is unlinked. When the
file cannot be closed, the entry of the file stays although it has been destroyed. -/
def writeQueue (fault : Option Fault) : Bool × Archive :=
  match s.queue.dropWhile (· ≤ s.scid) with
  | [] => (true, { s with queue := [] })
  | id :: rest =>
    let last := (id :: rest).getLast (by simp)
    if ∃ f ∈ s.archfiles, f.first = id ∧ f.last = last then (true, { s with queue := rest })
    else
      match fault with
      | none =>
        (true, { s with
          queue := [], archfiles := s.archfiles ++ [⟨id, last, id :: rest, true⟩] })
      | some .archfile | some .open => (false, { s with queue := rest })
      | some (.pack n) => (false, { s with queue := rest.drop n })
      | some .push => (false, { s with queue := [] })
      | some .close =>
        (false, { s with
          queue := [], archfiles := s.archfiles ++ [⟨id, last, id :: rest, false⟩] })

/-- The loop of `archive__remove_files`: the files which stay and those which are removed. -/
def removeLoop (threshold : ℕ) : ℕ → List Archfile → List Archfile × List Archfile
  | 0, files => (files, [])
  | n + 1, files =>
    match files[files.findIdx fun f => f.last ≤ threshold]? with
    | none => (files, [])
    | some f =>
      let rest := removeLoop threshold n
        (vecSwapRemove files (files.findIdx fun f => f.last ≤ threshold))
      (rest.1, f :: rest.2)

/-- The lowest stored change id of all nodes, of which `others` are those of the other nodes. -/
def lowest (others : List ℕ) : ℕ := others.foldl min s.scid

/-- `ti_nodes_scid`, which never goes down. -/
def globalScid (others : List ℕ) : ℕ :=
  if s.nodesScid < s.lowest others then s.lowest others else s.nodesScid

def removeFiles (others : List ℕ) : Archive :=
  let scid := s.globalScid others
  let threshold := if s.lastStored < scid then s.lastStored else scid
  let r := removeLoop threshold s.archfiles.length s.archfiles
  { s with nodesScid := scid, archfiles := r.1, removed := s.removed ++ r.2 }

/-- The call of `ti_store_store` when enough changes have been made since the last full backup,
where `stored` is `last_stored_change_id` after the call. -/
def storeFull (leid stored : ℕ) : Archive :=
  -- the difference is a `size_t`
  if s.threshold < (leid + 2 ^ 64 - s.lastStored) % 2 ^ 64 then { s with lastStored := stored }
  else s

def toDisk (fault : Option Fault) (stored : ℕ) (others : List ℕ) : Archive :=
  match s.queue.getLast? with
  | none => s.removeFiles others
  | some leid =>
    if leid = s.scid then s.removeFiles others
    else
      match (s.storeFull leid stored).writeQueue fault with
      | (false, s) => s
      | (true, s) => { s with scid := leid }.removeFiles others

end Archive

/-- A change is pushed, or the archive is written. -/
inductive Op where
  | push (id : ℕ)
  | toDisk (fault : Option Fault) (stored : ℕ) (others : List ℕ)
  deriving DecidableEq, Repr

/-- One step, where the ids of the changes increase. -/
def step (s : Archive) : Op → Option Archive
  | .push id => if ∀ p ∈ s.pushed, p < id then some (s.push id) else none
  | .toDisk fault stored others => some (s.toDisk fault stored others)

/-- Nothing fails while there are changes to write, and no node has a lower stored id than the
nodes had before. -/
def Meets (s : Archive) : Op → Prop
  | .push _ => True
  | .toDisk fault _ others => (fault = none ∨ s.queue = []) ∧ s.nodesScid ≤ s.lowest others

instance : ∀ s op, Decidable (Meets s op)
  | _, .push _ => inferInstanceAs (Decidable True)
  | s, .toDisk fault _ others =>
    inferInstanceAs (Decidable ((fault = none ∨ s.queue = []) ∧ s.nodesScid ≤ s.lowest others))

variable {leid : ℕ}

namespace Archive

def OnDisk (s : Archive) (id : ℕ) : Prop := ∃ f ∈ s.archfiles, f.onDisk = true ∧ id ∈ f.changes

def Stored (s : Archive) (id : ℕ) : Prop := s.OnDisk id ∨ ∃ f ∈ s.removed, id ∈ f.changes

/-- No change which has been pushed is lost, where `start` is the id of the last change which
was stored at first. -/
structure Safe (start : ℕ) (s : Archive) : Prop where
  kept : ∀ id ∈ s.pushed, s.scid < id → id ∈ s.queue ∨ s.OnDisk id
  stored : ∀ id ∈ s.pushed, start < id → id ≤ s.scid → s.Stored id

/-- What the queue and the files are between two steps. -/
structure Good (start : ℕ) (s : Archive) : Prop where
  sorted : s.queue.Pairwise (· < ·)
  above : ∀ id ∈ s.queue, s.scid < id
  pushed : ∀ id ∈ s.queue, id ∈ s.pushed
  queued : ∀ id ∈ s.pushed, s.scid < id → id ∈ s.queue
  stored : ∀ id ∈ s.pushed, start < id → id ≤ s.scid → s.Stored id
  files : ∀ f ∈ s.archfiles, f.onDisk = true ∧ f.last ≤ s.scid ∧ ∀ id ∈ f.changes, id ≤ f.last
  scid : s.scid = start ∨ s.scid ∈ s.pushed

/-- An archive to which nothing has been pushed, with files which are already stored. -/
structure Fresh (s : Archive) : Prop where
  queue : s.queue = []
  pushed : s.pushed = []
  removed : s.removed = []
  files : ∀ f ∈ s.archfiles, f.onDisk = true ∧ f.last ≤ s.scid ∧ ∀ id ∈ f.changes, id ≤ f.last

variable {s : Archive} {start threshold n : ℕ} {files : List Archfile} {f : Archfile}

theorem Fresh.good (h : s.Fresh) : s.Good s.scid where
  sorted := by simp [h.queue]
  above := by simp [h.queue]
  pushed := by simp [h.queue]
  queued := by simp [h.pushed]
  stored := by simp [h.pushed]
  files := h.files
  scid := .inl rfl

theorem Good.safe (h : s.Good start) : s.Safe start :=
  ⟨fun id hid hlt => .inl (h.queued id hid hlt), h.stored⟩

section Remove

/-- Files are kept or removed, and only the old ones are removed. -/
theorem removeLoop_spec (threshold n : ℕ) (files : List Archfile) :
    (∀ f, f ∈ (removeLoop threshold n files).1 ∨ f ∈ (removeLoop threshold n files).2 ↔ f ∈ files) ∧
    ∀ f ∈ (removeLoop threshold n files).2, f.last ≤ threshold := by
  induction n generalizing files with
  | zero => simp [removeLoop]
  | succ n ih =>
    unfold removeLoop
    split
    · simp
    · rename_i f hf
      obtain ⟨hi, rfl⟩ := List.getElem?_eq_some_iff.mp hf
      obtain ⟨hmem, hold⟩ := ih (vecSwapRemove files (files.findIdx fun f => f.last ≤ threshold))
      have hperm := (getElem_cons_eraseIdx_perm hi).symm.trans
        ((vecSwapRemove_perm files _ hi).symm.cons _)
      constructor
      · intro g
        simp only [hperm.mem_iff, mem_cons, ← hmem g]
        tauto
      · intro g hg
        rcases mem_cons.mp hg with rfl | hg
        · simpa using findIdx_getElem (w := hi)
        · exact hold g hg

variable (others : List ℕ)

theorem Stored.removeFiles {id : ℕ} (h : s.Stored id)
    (hfiles : ∀ f ∈ s.archfiles, f.onDisk) : (s.removeFiles others).Stored id := by
  obtain ⟨hmem, -⟩ := removeLoop_spec
    (if s.lastStored < s.globalScid others then s.lastStored else s.globalScid others)
    s.archfiles.length s.archfiles
  rcases h with ⟨f, hf, -, hid⟩ | ⟨f, hf, hid⟩
  · rcases (hmem f).mpr hf with hkept | hremoved
    · exact .inl ⟨f, hkept, hfiles f hf, hid⟩
    · exact .inr ⟨f, mem_append_right _ hremoved, hid⟩
  · exact .inr ⟨f, mem_append_left _ hf, hid⟩

theorem Good.removeFiles (h : s.Good start) : (s.removeFiles others).Good start where
  sorted := h.sorted
  above := h.above
  pushed := h.pushed
  queued := h.queued
  stored id hid hlt hle := (h.stored id hid hlt hle).removeFiles others fun f hf => (h.files f hf).1
  files f hf := h.files f (((removeLoop_spec _ _ _).1 f).mp (.inl hf))
  scid := h.scid

theorem lowest_le {x : ℕ} (hx : x ∈ s.scid :: others) : s.lowest others ≤ x := by
  have hfold : ∀ (l : List ℕ) (m : ℕ), l.foldl min m ≤ m ∧ ∀ x ∈ l, l.foldl min m ≤ x := by
    intro l
    induction l with
    | nil => simp
    | cons a l ih =>
      intro m
      obtain ⟨hm, hl⟩ := ih (min m a)
      simp only [foldl_cons, mem_cons, forall_eq_or_imp]
      exact ⟨hm.trans (min_le_left _ _), hm.trans (min_le_right _ _), hl⟩
  rcases mem_cons.mp hx with rfl | hx
  · exact (hfold others s.scid).1
  · exact (hfold others s.scid).2 x hx

/-- A file which is removed has no change which is not in the last full backup, or which a node
has not stored. -/
theorem removed_le (hfiles : ∀ f ∈ s.archfiles, ∀ id ∈ f.changes, id ≤ f.last)
    (hlow : s.nodesScid ≤ s.lowest others) (hf : f ∈ (s.removeFiles others).removed) :
    f ∈ s.removed ∨ ∀ id ∈ f.changes, id ≤ s.lastStored ∧ ∀ x ∈ s.scid :: others, id ≤ x := by
  rcases mem_append.mp hf with hf | hf
  · exact .inl hf
  · right
    intro id hid
    obtain ⟨hmem, hold⟩ := removeLoop_spec
      (if s.lastStored < s.globalScid others then s.lastStored else s.globalScid others)
      s.archfiles.length s.archfiles
    have hle : id ≤ _ := (hfiles f ((hmem f).mp (.inr hf)) id hid).trans (hold f hf)
    have hglobal : s.globalScid others ≤ s.lowest others := by
      unfold globalScid
      split_ifs with h
      · exact le_rfl
      · exact hlow
    refine ⟨?_, fun x hx => ?_⟩
    · split_ifs at hle with h <;> omega
    · have hx := lowest_le others hx
      split_ifs at hle with h <;> omega

end Remove

theorem Good.push (h : s.Good start) {id : ℕ} (hnew : ∀ p ∈ s.pushed, p < id) :
    (s.push id).Good start := by
  have hscid : id ≤ s.scid → id ≤ start := by
    intro hle
    rcases h.scid with heq | hmem
    · omega
    · have := hnew _ hmem
      omega
  have hqueue : ∀ x, x ∈ (s.push id).queue ↔ x ∈ s.queue ∨ s.scid < id ∧ x = id := by
    intro x
    simp only [Archive.push]
    split_ifs with hid <;> simp [hid]
  have hpushed : ∀ x, x ∈ (s.push id).pushed ↔ x ∈ s.pushed ∨ x = id := by
    simp [Archive.push]
  refine ⟨?_, ?_, ?_, ?_, ?_, h.files, ?_⟩
  · simp only [Archive.push]
    split_ifs with hid
    · refine pairwise_append.mpr ⟨h.sorted, by simp, fun x hx y hy => ?_⟩
      rw [mem_singleton.mp hy]
      exact hnew x (h.pushed x hx)
    · exact h.sorted
  · intro x hx
    rcases (hqueue x).mp hx with hx | ⟨hlt, rfl⟩
    · exact h.above x hx
    · exact hlt
  · intro x hx
    rw [hpushed]
    exact ((hqueue x).mp hx).imp (h.pushed x) And.right
  · intro x hx hlt
    rw [hqueue]
    rcases (hpushed x).mp hx with hx | rfl
    · exact .inl (h.queued x hx hlt)
    · exact .inr ⟨hlt, rfl⟩
  · intro x hx hstart hle
    rcases (hpushed x).mp hx with hx | rfl
    · exact h.stored x hx hstart hle
    · exact absurd (hscid hle) (by omega)
  · exact h.scid.imp_right fun hmem => (hpushed _).mpr (.inl hmem)

section Write

variable {id : ℕ} {rest : List ℕ}

theorem Good.le_last (h : s.Good start) (hlast : s.queue.getLast? = some leid) :
    leid ∈ s.queue ∧ ∀ x ∈ s.queue, x ≤ leid := by
  obtain ⟨l, hl⟩ := getLast?_eq_some_iff.mp hlast
  have hsorted := h.sorted
  rw [hl] at hsorted ⊢
  refine ⟨by simp, fun x hx => ?_⟩
  rcases mem_append.mp hx with hx | hx
  · exact (pairwise_append.mp hsorted).2.2 x hx leid (by simp) |>.le
  · exact (mem_singleton.mp hx).le

/-- All changes of the queue are written, since none of them is in a file. -/
theorem Good.writeQueue (h : s.Good start) (hqueue : s.queue = id :: rest)
    (hlast : s.queue.getLast? = some leid) (fault : Option Fault) :
    s.writeQueue fault =
      match fault with
      | none =>
        (true, { s with queue := [], archfiles := s.archfiles ++ [⟨id, leid, s.queue, true⟩] })
      | some .archfile | some .open => (false, { s with queue := rest })
      | some (.pack n) => (false, { s with queue := rest.drop n })
      | some .push => (false, { s with queue := [] })
      | some .close =>
        (false, { s with
          queue := [], archfiles := s.archfiles ++ [⟨id, leid, s.queue, false⟩] }) := by
  have hdrop : s.queue.dropWhile (· ≤ s.scid) = id :: rest := by
    rw [hqueue, dropWhile_cons_of_neg]
    simpa using h.above id (by simp [hqueue])
  have hget : (id :: rest).getLast (by simp) = leid := by
    rw [hqueue, getLast?_eq_some_getLast (by simp)] at hlast
    exact Option.some.inj hlast
  have hnot : ¬ ∃ f ∈ s.archfiles, f.first = id ∧ f.last = leid := by
    rintro ⟨f, hf, -, hl⟩
    have hle := (h.files f hf).2.1
    have hlt := h.above leid (h.le_last hlast).1
    omega
  unfold Archive.writeQueue
  rw [hdrop]
  simp only [hget, if_neg hnot, hqueue]

theorem Good.written (h : s.Good start) (id : ℕ) (hlast : s.queue.getLast? = some leid) :
    Good start { s with
      queue := [], archfiles := s.archfiles ++ [⟨id, leid, s.queue, true⟩], scid := leid } := by
  obtain ⟨hmem, hle⟩ := h.le_last hlast
  have hlt := h.above leid hmem
  refine ⟨by simp, by simp, by simp, ?_, ?_, ?_, .inr (h.pushed leid hmem)⟩
  · intro x hx hscid
    have := hle x (h.queued x hx (hlt.trans hscid))
    exact absurd hscid (not_lt.mpr this)
  · intro x hx hstart hscid
    by_cases hold : x ≤ s.scid
    · refine (h.stored x hx hstart hold).imp_left ?_
      rintro ⟨f, hf, hon, hin⟩
      exact ⟨f, mem_append_left _ hf, hon, hin⟩
    · exact .inl ⟨_, mem_append_right _ (mem_singleton_self _), rfl,
        h.queued x hx (not_le.mp hold)⟩
  · intro f hf
    rcases mem_append.mp hf with hf | hf
    · obtain ⟨hon, hl, hin⟩ := h.files f hf
      exact ⟨hon, hl.trans hlt.le, hin⟩
    · rw [mem_singleton.mp hf]
      exact ⟨rfl, le_rfl, hle⟩

theorem storeFull_eq (s : Archive) (leid stored : ℕ) :
    ∃ last, s.storeFull leid stored = { s with lastStored := last } := by
  unfold storeFull
  split_ifs
  · exact ⟨stored, rfl⟩
  · exact ⟨s.lastStored, rfl⟩

theorem Good.storeFull (h : s.Good start) (leid stored : ℕ) :
    (s.storeFull leid stored).Good start := by
  obtain ⟨last, hlast⟩ := storeFull_eq s leid stored
  rw [hlast]
  exact ⟨h.sorted, h.above, h.pushed, h.queued, h.stored, h.files, h.scid⟩

theorem Good.toDisk_eq (h : s.Good start) (hlast : s.queue.getLast? = some leid)
    (fault : Option Fault) (stored : ℕ) (others : List ℕ) :
    s.toDisk fault stored others =
      match (s.storeFull leid stored).writeQueue fault with
      | (false, s) => s
      | (true, s) => { s with scid := leid }.removeFiles others := by
  have hlt := h.above leid (h.le_last hlast).1
  unfold toDisk
  rw [hlast]
  exact if_neg hlt.ne'

/-- Without a fault the files are removed when all changes have been written. -/
theorem Good.toDisk_none (h : s.Good start) (hne : s.queue ≠ []) (stored : ℕ) (others : List ℕ) :
    ∃ t : Archive, t.Good start ∧ t.removed = s.removed ∧ t.nodesScid = s.nodesScid ∧
      s.scid ≤ t.scid ∧ s.toDisk none stored others = t.removeFiles others := by
  obtain ⟨id, rest, hqueue⟩ := exists_cons_of_ne_nil hne
  obtain ⟨leid, hlast⟩ : ∃ leid, s.queue.getLast? = some leid :=
    ⟨_, getLast?_eq_some_getLast hne⟩
  have hlt := h.above leid (h.le_last hlast).1
  obtain ⟨last, hstore⟩ := storeFull_eq s leid stored
  have hgood := h.storeFull leid stored
  have heq := h.toDisk_eq hlast none stored others
  rw [hstore] at hgood heq
  rw [hgood.writeQueue hqueue hlast] at heq
  exact ⟨_, hgood.written id hlast, rfl, rfl, hlt.le, heq⟩

/-- With a fault the first change is lost. -/
theorem Good.toDisk_some (h : s.Good start) (hqueue : s.queue = id :: rest) (fault : Fault)
    (stored : ℕ) (others : List ℕ) : ¬ (s.toDisk (some fault) stored others).Safe start := by
  obtain ⟨leid, hlast⟩ : ∃ leid, s.queue.getLast? = some leid :=
    ⟨_, getLast?_eq_some_getLast (by simp [hqueue])⟩
  obtain ⟨last, hstore⟩ := storeFull_eq s leid stored
  have hgood := h.storeFull leid stored
  have heq := h.toDisk_eq hlast (some fault) stored others
  rw [hstore] at hgood heq
  rw [hgood.writeQueue hqueue hlast] at heq
  have hid : id ∈ s.queue := by simp [hqueue]
  have hlt := h.above id hid
  have hrest : ∀ x ∈ rest, id < x := (pairwise_cons.mp (hqueue ▸ h.sorted)).1
  -- a file has older changes, or it has been unlinked
  have hold : ¬ s.OnDisk id := by
    rintro ⟨f, hf, -, hin⟩
    obtain ⟨-, hl, hle⟩ := h.files f hf
    exact absurd ((hle id hin).trans hl) (not_le.mpr hlt)
  intro hsafe
  rw [heq] at hsafe
  cases fault with
  | archfile | «open» =>
    rcases hsafe.kept id (h.pushed id hid) hlt with hin | hdisk
    · exact lt_irrefl _ (hrest id hin)
    · exact hold hdisk
  | pack n =>
    rcases hsafe.kept id (h.pushed id hid) hlt with hin | hdisk
    · exact lt_irrefl _ (hrest id (mem_of_mem_drop hin))
    · exact hold hdisk
  | push =>
    rcases hsafe.kept id (h.pushed id hid) hlt with hin | hdisk
    · cases hin
    · exact hold hdisk
  | close =>
    rcases hsafe.kept id (h.pushed id hid) hlt with hin | ⟨f, hf, hon, hin⟩
    · cases hin
    · rcases mem_append.mp hf with hf | hf
      · exact hold ⟨f, hf, hon, hin⟩
      · rw [mem_singleton.mp hf] at hon
        cases hon

end Write

theorem toDisk_nil (hnil : s.queue = []) (fault : Option Fault) (stored : ℕ) (others : List ℕ) :
    s.toDisk fault stored others = s.removeFiles others := by
  simp [toDisk, hnil]

theorem Good.toDisk_removeFiles (h : s.Good start) {fault : Option Fault}
    (hfault : fault = none ∨ s.queue = []) (stored : ℕ) (others : List ℕ) :
    ∃ t : Archive, t.Good start ∧ t.removed = s.removed ∧ t.nodesScid = s.nodesScid ∧
      s.scid ≤ t.scid ∧ s.toDisk fault stored others = t.removeFiles others := by
  by_cases hnil : s.queue = []
  · exact ⟨s, h, rfl, rfl, le_rfl, toDisk_nil hnil fault stored others⟩
  · obtain rfl := hfault.resolve_right hnil
    exact h.toDisk_none hnil stored others

theorem Good.toDisk_safe_iff (h : s.Good start) (fault : Option Fault) (stored : ℕ)
    (others : List ℕ) :
    (s.toDisk fault stored others).Safe start ↔ fault = none ∨ s.queue = [] := by
  constructor
  · intro hsafe
    by_contra hnot
    obtain ⟨hfault, hne⟩ := not_or.mp hnot
    obtain ⟨fault, rfl⟩ := Option.ne_none_iff_exists'.mp hfault
    obtain ⟨id, rest, hqueue⟩ := exists_cons_of_ne_nil hne
    exact h.toDisk_some hqueue fault stored others hsafe
  · intro hfault
    obtain ⟨t, ht, -, -, -, heq⟩ := h.toDisk_removeFiles hfault stored others
    rw [heq]
    exact (ht.removeFiles others).safe

theorem lowest_mono {t : Archive} (others : List ℕ) (hle : s.scid ≤ t.scid) :
    s.lowest others ≤ t.lowest others := by
  unfold lowest
  generalize s.scid = m at hle ⊢
  generalize t.scid = k at hle ⊢
  induction others generalizing m k with
  | nil => exact hle
  | cons a others ih => exact ih _ _ (min_le_min_right a hle)

end Archive

variable {s t : Archive} {start : ℕ}

theorem Archive.Good.step (h : s.Good start) {op : Op} (hmeets : Meets s op)
    (hstep : step s op = some t) : t.Good start := by
  cases op with
  | push id =>
    obtain ⟨hnew, heq⟩ := Option.ite_none_right_eq_some.mp hstep
    exact Option.some.inj heq ▸ h.push hnew
  | toDisk fault stored others =>
    obtain ⟨u, hu, -, -, -, heq⟩ := h.toDisk_removeFiles hmeets.1 stored others
    rw [← Option.some.inj hstep, heq]
    exact hu.removeFiles others

/-- As long as nothing fails while changes are written, no change is lost: it is in the queue or
in a file until the full backup and all nodes have it. Otherwise a change is lost. -/
theorem archive_loses_nothing {s₀ : Archive} (ops : List Op) (h₀ : s₀.Fresh)
    (hmeets : Along step Meets s₀ ops) (hrun : run step s₀ ops = some s) :
    s.Safe s₀.scid ∧
    (∀ fault stored others,
      (s.toDisk fault stored others).Safe s₀.scid ↔ fault = none ∨ s.queue = []) ∧
    ∀ fault stored others, Meets s (.toDisk fault stored others) →
      ∀ f ∈ (s.toDisk fault stored others).removed, f ∈ s.removed ∨
        ∀ id ∈ f.changes, id ≤ (s.toDisk fault stored others).lastStored ∧
          ∀ x ∈ (s.toDisk fault stored others).scid :: others, id ≤ x := by
  have hgood : s.Good s₀.scid :=
    run_invariant_along (P := (Archive.Good s₀.scid)) (fun s op t hs hm hstep => hs.step hm hstep)
      h₀.good hmeets hrun
  refine ⟨hgood.safe, hgood.toDisk_safe_iff, fun fault stored others hm f hf => ?_⟩
  obtain ⟨u, hu, hremoved, hnodes, hscid, heq⟩ := hgood.toDisk_removeFiles hm.1 stored others
  rw [heq] at hf ⊢
  rw [← hremoved]
  refine Archive.removed_le others (fun f hf => (hu.files f hf).2.2) ?_ hf
  rw [hnodes]
  exact hm.2.trans (Archive.lowest_mono others hscid)

def smallArchive : Archive :=
  ⟨[], [⟨1, 2, [1, 2], true⟩], 2, 0, 0, 1, [], []⟩

theorem smallArchive_fresh : smallArchive.Fresh := by
  refine ⟨rfl, rfl, rfl, ?_⟩
  simp [smallArchive]

/-- The changes 3 and 4 are written, and the old file is removed. -/
theorem archive_loses_nothing_four :
    ∃ s, run step smallArchive [.push 3, .push 4, .toDisk none 4 [3]] = some s ∧
      s.Safe 2 ∧ s.queue = [] ∧ s.scid = 4 := by
  refine ⟨⟨[], [⟨3, 4, [3, 4], true⟩], 4, 4, 3, 1, [3, 4], [⟨1, 2, [1, 2], true⟩]⟩, by decide, ?_,
    rfl, rfl⟩
  exact (archive_loses_nothing [.push 3, .push 4, .toDisk none 4 [3]]
    smallArchive_fresh (by decide) (by decide)).1

/-- The file cannot be opened after the first change is out of the queue. -/
theorem open_fault_loses :
    ∃ s, run step smallArchive [.push 3, .push 4, .toDisk (some .open) 4 [3]] = some s ∧
      3 ∈ s.pushed ∧ s.scid < 3 ∧ 3 ∉ s.queue ∧ ¬ s.OnDisk 3 := by
  refine ⟨⟨[4], [⟨1, 2, [1, 2], true⟩], 2, 4, 0, 1, [3, 4], []⟩, by decide, by decide, by decide,
    by decide, ?_⟩
  simp [Archive.OnDisk]

end ThingsDB.Archives
