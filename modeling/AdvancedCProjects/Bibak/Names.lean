import AdvancedCProjects.Bibak.Watch
import Mathlib.Data.List.Perm.Subperm

/-!
# The server's set of paths

The CREATE and DELETE messages of the watch loop, applied to a set of paths
that starts as the client's, and compared with the watched tree.
-/

namespace AdvancedCProjects.Bibak
open Base

def Message.applyPath (paths : List Path) : Message → List Path
  | .create p _ => p :: paths
  | .delete p => paths.filter (· ≠ p)
  | .update _ _ _ => paths

def filePaths (base : Path) (tree : Listing) : List Path := (tree.files base).map Inode.path

def relPaths (base : Path) (tree : Listing) : List Path :=
  (filePaths base tree).map fun p => removeBasePath p base

/-- The server's paths: those of the initial synchronisation and the messages. -/
def serverPaths (base : Path) (s : Client) : List Path :=
  s.sent.foldl Message.applyPath (relPaths base s.synced)

def tablePaths (s : Client) : List Path :=
  match s.heap s.fileInfos with
  | some b => (b.entries s.globCount).map FileModificationInfo.filepath
  | none => []

/-- At most `MAX_FILES` files, and `malloc` hands out the block that was just
freed, so that the rebuilt table is the one every function reads. -/
def OneTable (base : Path) (s : Client) : Action → Prop
  | .env tree => (tree.files base).length ≤ maxFiles
  | .poll => True
  | .rescan addr _ => match s.pc with
    | .createRescan _ => addr = s.param
    | .deleteRescan _ => addr = s.fileInfos
    | _ => True

/-- A rescan finds the old table and the reported path, nothing else; equal
counts hide no change; an entry `check_update` opens is still there. -/
def OneChange (base : Path) (s : Client) : Action → Prop
  | .env _ => True
  | .poll => match s.pc, s.heap s.param with
    | .checkCreate, _ => (filePaths base s.tree).length = s.globCount →
      ∀ q ∈ filePaths base s.tree, q ∈ tablePaths s
    | .checkUpdate i, some b => i < s.count →
      s.tree.stat base (b i).filepath ≠ none ∨ (b i).filepath ∉ tablePaths s
    | _, _ => True
  | .rescan _ _ => match s.pc with
    | .createRescan p => (∀ q ∈ filePaths base s.tree, q = p ∨ q ∈ tablePaths s) ∧
      ∀ q ∈ p :: tablePaths s, q ∈ filePaths base s.tree
    | .deleteRescan p => (∀ q ∈ filePaths base s.tree, q ≠ p ∧ q ∈ tablePaths s) ∧
      ∀ q ∈ tablePaths s, q ≠ p → q ∈ filePaths base s.tree
    | _ => True

def OneAtATime (base : Path) (s : Client) (a : Action) : Prop :=
  OneTable base s a ∧ OneChange base s a

instance (base : Path) (s : Client) (a : Action) : Decidable (OneTable base s a) := by
  cases a <;> simp only [OneTable] <;> (try split) <;> infer_instance

instance (base : Path) (s : Client) (a : Action) : Decidable (OneChange base s a) := by
  cases a <;> simp only [OneChange] <;> (try split) <;> infer_instance

instance (base : Path) (s : Client) (a : Action) : Decidable (OneAtATime base s a) :=
  inferInstanceAs (Decidable (_ ∧ _))

/-! ### Scans -/

section Scan
variable {base : Path} {tree : Listing} {b : Block}

theorem scan_entries (hfit : tree.Fits base) :
    (scan base tree b).entries = ((tree.files base).map Listing.info).take maxFiles := by
  rw [scan, Listing.saveFileModificationTimes_entries tree base hfit _ (Nat.zero_le _)]
  simp [Snapshot.entries, Block.entries]

theorem scan_paths (hfit : tree.Fits base) (hfew : (tree.files base).length ≤ maxFiles) :
    (scan base tree b).entries.map FileModificationInfo.filepath = filePaths base tree := by
  rw [scan_entries hfit, List.take_of_length_le (by simpa using hfew), List.map_map]
  rfl

theorem scan_count (hfit : tree.Fits base) (hfew : (tree.files base).length ≤ maxFiles) :
    (scan base tree b).count = (filePaths base tree).length := by
  rw [← scan_paths (b := b) hfit hfew]
  simp [Snapshot.entries]

theorem filePaths_nodup (hok : tree.NamesOk) : (filePaths base tree).Nodup :=
  ((tree.nodes_nodup hok base).sublist (List.filter_sublist.map _))

/-- A path whose relative form names it again. -/
def Below (base p : Path) : Prop := base ++ removeBasePath p base = p

theorem filePaths_below (hok : tree.NamesOk) : ∀ p ∈ filePaths base tree, Below base p := by
  intro p hp
  obtain ⟨f, hf, rfl⟩ := List.mem_map.mp hp
  exact append_removeBasePath tree hok base f (List.mem_filter.mp hf).1

theorem mem_relPaths (hok : tree.NamesOk) (r : Path) :
    r ∈ relPaths base tree ↔ base ++ r ∈ filePaths base tree := by
  constructor
  · intro h
    obtain ⟨p, hp, rfl⟩ := List.mem_map.mp h
    have hb := filePaths_below hok p hp
    rw [Below] at hb
    exact hb.symm ▸ hp
  · intro h
    have hb := filePaths_below hok _ h
    exact List.mem_map.mpr ⟨_, h, List.append_cancel_left hb⟩

end Scan

theorem firstMissing_some {xs ys : List FileModificationInfo} {e : FileModificationInfo}
    (h : firstMissing xs ys = some e) :
    e ∈ xs ∧ e.filepath ∉ ys.map FileModificationInfo.filepath := by
  refine ⟨List.mem_of_find?_eq_some h, fun hmem => ?_⟩
  obtain ⟨f, hf, hp⟩ := List.mem_map.mp hmem
  have hall := List.find?_some h
  have hne := List.all_eq_true.mp hall f hf
  simp [hp] at hne

theorem firstMissing_none {xs ys : List FileModificationInfo} (h : firstMissing xs ys = none) :
    ∀ p ∈ xs.map FileModificationInfo.filepath, p ∈ ys.map FileModificationInfo.filepath := by
  intro p hp
  obtain ⟨e, he, rfl⟩ := List.mem_map.mp hp
  have hnot := List.find?_eq_none.mp h e he
  by_contra hno
  refine hnot (List.all_eq_true.mpr fun f hf => decide_eq_true fun heq => ?_)
  exact hno (List.mem_map.mpr ⟨f, hf, heq⟩)

/-! ### What the steps keep -/

/-- The server's paths at a point of the loop, `table` being the old table
until the rescan. -/
def Expected (pc : Pc) (table : List Path) (q : Path) : Prop :=
  match pc with
  | .createRescan p => q = p ∨ q ∈ table
  | .deleteRescan p => q ≠ p ∧ q ∈ table
  | _ => q ∈ table

structure Tracked (base : Path) (s : Client) : Prop where
  names : s.tree.NamesOk
  fits : s.tree.Fits base
  few : (s.tree.files base).length ≤ maxFiles
  one : s.param = s.fileInfos
  live : ∃ b, s.heap s.fileInfos = some b
  nodup : (tablePaths s).Nodup
  below : ∀ q ∈ tablePaths s, Below base q
  reported : ∀ p, s.pc = .created p ∨ s.pc = .deleted p → Below base p
  agree : ∀ r, r ∈ serverPaths base s ↔ Expected s.pc (tablePaths s) (base ++ r)

theorem tablePaths_of_live {s : Client} {b : Block} (h : s.heap s.fileInfos = some b) :
    tablePaths s = (b.entries s.globCount).map FileModificationInfo.filepath := by
  simp only [tablePaths, h]

theorem serverPaths_append (base : Path) (s : Client) (m : Message) (pc : Pc) :
    serverPaths base { s with sent := s.sent ++ [m], pc := pc }
      = (m.applyPath (serverPaths base s)) := by
  simp only [serverPaths, List.foldl_append, List.foldl_cons, List.foldl_nil]

theorem Below.rel_eq_iff {base p : Path} (h : Below base p) (r : Path) :
    r = removeBasePath p base ↔ base ++ r = p := by
  rw [Below] at h
  constructor
  · rintro rfl
    exact h
  · intro hr
    exact List.append_cancel_left (hr.trans h.symm)

section Steps
variable {base : Path} {s t : Client}

theorem Tracked.move (h : Tracked base s) {pc : Pc}
    (hs : ∀ q, Expected s.pc (tablePaths s) q ↔ q ∈ tablePaths s)
    (hpc : ∀ q, Expected pc (tablePaths s) q ↔ q ∈ tablePaths s)
    (hrep : ∀ p, pc = .created p ∨ pc = .deleted p → Below base p) :
    Tracked base { s with pc := pc } where
  names := h.names
  fits := h.fits
  few := h.few
  one := h.one
  live := h.live
  nodup := h.nodup
  below := h.below
  reported := hrep
  agree r := by
    show r ∈ serverPaths base s ↔ Expected pc (tablePaths s) (base ++ r)
    rw [h.agree, hs, hpc]

theorem readTable_of_live {b : Block} {n a : ℕ} (h : s.heap a = some b) :
    readTable s.heap a n = some (b.entries n) := by
  rw [readTable]
  split
  · next hn => simp [hn, Block.entries]
  · simp [h]

theorem Tracked.checkCreate (h : Tracked base s) (hpc : s.pc = .checkCreate) :
    Tracked base (s.checkCreate base) := by
  obtain ⟨b, hb⟩ := h.live
  have htop : ∀ q, Expected s.pc (tablePaths s) q ↔ q ∈ tablePaths s := by simp [hpc, Expected]
  simp only [Client.checkCreate, readTable_of_live (h.one ▸ hb)]
  split
  · exact h.move htop (fun _ => Iff.rfl) (by simp)
  · cases hm : firstMissing (scan base s.tree temp).entries (b.entries s.globCount) with
    | none => exact h.move htop (fun _ => Iff.rfl) (by simp)
    | some e =>
      refine h.move htop (fun _ => Iff.rfl) fun p hp => ?_
      have hmem := List.mem_map_of_mem (f := FileModificationInfo.filepath) (firstMissing_some hm).1
      rw [scan_paths h.fits h.few] at hmem
      rcases hp with hp | hp
      · exact Pc.created.inj hp ▸ filePaths_below h.names _ hmem
      · contradiction

theorem Tracked.checkDelete (h : Tracked base s) (hpc : s.pc = .checkDelete) :
    Tracked base (s.checkDelete base) := by
  obtain ⟨b, hb⟩ := h.live
  have htop : ∀ q, Expected s.pc (tablePaths s) q ↔ q ∈ tablePaths s := by simp [hpc, Expected]
  simp only [Client.checkDelete, readTable_of_live hb]
  split
  · exact h.move htop (fun _ => Iff.rfl) (by simp)
  · cases hm : firstMissing (b.entries s.globCount) (scan base s.tree temp).entries with
    | none => exact h.move htop (fun _ => Iff.rfl) (by simp)
    | some e =>
      refine h.move htop (fun _ => Iff.rfl) fun p hp => ?_
      have hmem := List.mem_map_of_mem (f := FileModificationInfo.filepath) (firstMissing_some hm).1
      rw [← tablePaths_of_live hb] at hmem
      rcases hp with hp | hp
      · contradiction
      · exact Pc.deleted.inj hp ▸ h.below _ hmem

theorem Tracked.created (h : Tracked base s) {p : Path} (hpc : s.pc = .created p) (n : ℤ) :
    Tracked base { s with
      sent := s.sent ++ [.create (removeBasePath p base) n], pc := .createRescan p } where
  names := h.names
  fits := h.fits
  few := h.few
  one := h.one
  live := h.live
  nodup := h.nodup
  below := h.below
  reported := by simp
  agree r := by
    have hr := (h.reported p (.inl hpc)).rel_eq_iff r
    have ha := h.agree r
    simp only [hpc, Expected] at ha
    rw [serverPaths_append]
    simp only [Message.applyPath, List.mem_cons, hr, ha]
    rfl

theorem Tracked.deleted (h : Tracked base s) {p : Path} (hpc : s.pc = .deleted p) :
    Tracked base { s with
      sent := s.sent ++ [.delete (removeBasePath p base)], pc := .deleteRescan p } where
  names := h.names
  fits := h.fits
  few := h.few
  one := h.one
  live := h.live
  nodup := h.nodup
  below := h.below
  reported := by simp
  agree r := by
    have hr := (h.reported p (.inr hpc)).rel_eq_iff r
    have ha := h.agree r
    simp only [hpc, Expected] at ha
    rw [serverPaths_append]
    simp only [Message.applyPath, List.mem_filter, decide_eq_true_eq, ne_eq, hr, ha]
    exact and_comm

theorem Tracked.rewrite (h : Tracked base s) {b b' : Block} (hb : s.heap s.param = some b)
    (hsame : ∀ i, (b' i).filepath = (b i).filepath) {pc : Pc}
    (hs : ∀ q, Expected s.pc (tablePaths s) q ↔ q ∈ tablePaths s)
    (hpc : ∀ q, Expected pc (tablePaths s) q ↔ q ∈ tablePaths s)
    (hrep : ∀ p, pc = .created p ∨ pc = .deleted p → Below base p) :
    Tracked base { s with heap := Function.update s.heap s.param (some b'), pc := pc } := by
  have hlive : Function.update s.heap s.param (some b') s.fileInfos = some b' := by
    rw [h.one, Function.update_self]
  have htable : tablePaths { s with heap := Function.update s.heap s.param (some b'), pc := pc }
      = tablePaths s := by
    rw [tablePaths_of_live hlive, tablePaths_of_live (h.one ▸ hb)]
    simp only [Block.entries, List.map_map]
    exact List.map_congr_left fun i _ => hsame i
  constructor
  case names => exact h.names
  case fits => exact h.fits
  case few => exact h.few
  case one => exact h.one
  case live => exact ⟨b', hlive⟩
  case nodup => exact htable.symm ▸ h.nodup
  case below => exact htable.symm ▸ h.below
  case reported => exact hrep
  case agree =>
    intro r
    rw [htable]
    show r ∈ serverPaths base s ↔ Expected pc (tablePaths s) (base ++ r)
    rw [h.agree, hs, hpc]

theorem Tracked.checkUpdate (h : Tracked base s) {i : ℕ} (hpc : s.pc = .checkUpdate i)
    (hone : OneChange base s .poll) : Tracked base (s.checkUpdate base i) := by
  obtain ⟨b, hb⟩ := h.live
  have hb' : s.heap s.param = some b := h.one ▸ hb
  have htop : ∀ q, Expected s.pc (tablePaths s) q ↔ q ∈ tablePaths s := by simp [hpc, Expected]
  simp only [OneChange, hpc, hb'] at hone
  simp only [Client.checkUpdate, hb']
  split
  · exact h.move htop (fun _ => Iff.rfl) (by simp)
  next hlt =>
  cases hstat : s.tree.stat base (b i).filepath with
  | some f => exact h.move htop (fun _ => Iff.rfl) (by simp)
  | none =>
    -- a vanished path is not in the table, so nothing is dropped
    have hnot := (hone (by omega)).resolve_left (not_not.mpr hstat)
    have habs : removeFileFromPath (fun b => (b i).filepath) b s.globCount 0 s.globCount
        = (b, s.globCount) := by
      refine removeFileFromPath_absent _ b _ _ _ fun j _ hj heq => hnot ?_
      rw [tablePaths_of_live hb, ← heq]
      exact List.mem_map_of_mem (Block.mem_entries.mpr ⟨j, by omega, rfl⟩)
    simp only [habs]
    exact h.rewrite hb' (fun _ => rfl) htop (fun _ => Iff.rfl) (by simp)

theorem Tracked.statEntry (h : Tracked base s) {i : ℕ} (hpc : s.pc = .statEntry i) :
    Tracked base (s.statEntry base i) := by
  obtain ⟨b, hb⟩ := h.live
  have hb' : s.heap s.param = some b := h.one ▸ hb
  have htop : ∀ q, Expected s.pc (tablePaths s) q ↔ q ∈ tablePaths s := by simp [hpc, Expected]
  have hsame : ∀ (f : Inode) (j : ℕ), (Function.update b i
      { b i with lastModifiedTime := f.mtime } j).filepath = (b j).filepath := by
    intro f j
    by_cases hj : j = i
    · subst hj; simp
    · rw [Function.update_of_ne hj]
  simp only [Client.statEntry, hb']
  cases s.tree.stat base (b i).filepath with
  | none => exact h.move htop (fun _ => Iff.rfl) (by simp)
  | some f =>
    dsimp only
    split
    · exact h.rewrite hb' (hsame f) htop (fun _ => Iff.rfl) (by simp)
    split
    · exact h.rewrite hb' (hsame f) htop (fun _ => Iff.rfl) (by simp)
    · exact h.move htop (fun _ => Iff.rfl) (by simp)

theorem Tracked.updated (h : Tracked base s) {i : ℕ} (hpc : s.pc = .updated i) :
    Tracked base (s.reportUpdate base i) := by
  obtain ⟨b, hb⟩ := h.live
  simp only [Client.reportUpdate, h.one ▸ hb]
  constructor
  case names => exact h.names
  case fits => exact h.fits
  case few => exact h.few
  case one => exact h.one
  case live => exact h.live
  case nodup => exact h.nodup
  case below => exact h.below
  case reported => simp
  case agree =>
    intro r
    rw [serverPaths_append]
    have ha := h.agree r
    simp only [hpc, Expected] at ha
    exact ha

theorem Tracked.rescan (h : Tracked base s) (junk : Block) (pc : Pc) {u : Client}
    (hu : u = { s with
      fileInfos := s.fileInfos
      heap := Function.update (Function.update s.heap s.fileInfos none) s.fileInfos
        (some (scan base s.tree junk).files)
      globCount := (scan base s.tree junk).count
      pc := pc })
    (hpc : ∀ table q, Expected pc table q ↔ q ∈ table)
    (hrep : ∀ p, pc ≠ .created p ∧ pc ≠ .deleted p)
    (hset : ∀ q, Expected s.pc (tablePaths s) q ↔ q ∈ filePaths base s.tree) : Tracked base u := by
  have htable : tablePaths u = filePaths base s.tree := by
    rw [tablePaths_of_live (b := (scan base s.tree junk).files) (by simp [hu]), hu]
    exact scan_paths h.fits h.few
  subst hu
  constructor
  case names => exact h.names
  case fits => exact h.fits
  case few => exact h.few
  case one => exact h.one
  case live => exact ⟨_, Function.update_self ..⟩
  case nodup => exact htable.symm ▸ filePaths_nodup h.names
  case below => exact htable.symm ▸ filePaths_below h.names
  case reported =>
    exact fun p hp => hp.elim (fun e => ((hrep p).1 e).elim) fun e => ((hrep p).2 e).elim
  case agree =>
    intro r
    rw [htable, hpc]
    exact (h.agree r).trans (hset _)

end Steps

def watchFew (base : Path) : Machine Client Action where
  start s := (watch base).start s ∧ (s.tree.files base).length ≤ maxFiles
  next := (watch base).next

theorem tracked_start {base : Path} {s : Client} (hs : (watchFew base).start s) :
    Tracked base s := by
  obtain ⟨⟨hok, hfit, hsync, hsent, hpc, hone, _, junk, hheap, hcount⟩, hfew⟩ := hs
  have htable : tablePaths s = filePaths base s.tree := by
    rw [tablePaths_of_live hheap, hcount]
    exact scan_paths hfit hfew
  constructor
  case names => exact hok
  case fits => exact hfit
  case few => exact hfew
  case one => exact hone
  case live => exact ⟨_, hheap⟩
  case nodup => exact htable.symm ▸ filePaths_nodup hok
  case below => exact htable.symm ▸ filePaths_below hok
  case reported => simp [hpc]
  case agree =>
    intro r
    simp only [hpc, Expected, htable, serverPaths, hsent, hsync, List.foldl_nil]
    exact mem_relPaths hok r

theorem tracked_inductive (base : Path) : (watchFew base).Inductive
    (OneAtATime base) (Tracked base) where
  base _ hs := tracked_start hs
  keep s a t h ha hn := by
    obtain ⟨b, hb⟩ := h.live
    cases watch_move hn with
    | env hok hfit => exact ⟨hok, hfit, ha.1, h.one, h.live, h.nodup, h.below, h.reported, h.agree⟩
    | checkCreate hpc => exact h.checkCreate hpc
    | created hpc => exact h.created hpc _
    | checkDelete hpc => exact h.checkDelete hpc
    | deleted hpc => exact h.deleted hpc
    | checkUpdate hpc => exact h.checkUpdate hpc ha.2
    | statEntry hpc => exact h.statEntry hpc
    | updated hpc => exact h.updated hpc
    | lost hpc hfreed =>
      rcases hpc with ⟨-, rfl⟩ | ⟨-, rfl⟩
      · rw [h.one, hb] at hfreed
        contradiction
      · rw [hb] at hfreed
        contradiction
    | @createRescan p addr junk hpc hlive =>
      have haddr : addr = s.fileInfos := by
        have := ha.1
        simp only [OneTable, hpc] at this
        rw [this, h.one]
      subst haddr
      have hset := ha.2
      simp only [OneChange, hpc] at hset
      refine h.rescan junk .checkDelete ?_ (fun _ _ => Iff.rfl) (by simp) ?_
      · simp only [Client.rescanned, h.one]
      · intro q
        simp only [hpc, Expected]
        constructor
        · rintro (rfl | hq)
          · exact hset.2 _ List.mem_cons_self
          · exact hset.2 _ (List.mem_cons_of_mem _ hq)
        · exact hset.1 q
    | @deleteRescan p addr junk hpc hlive =>
      have haddr : addr = s.fileInfos := by
        have := ha.1
        simpa only [OneTable, hpc] using this
      subst haddr
      have hset := ha.2
      simp only [OneChange, hpc] at hset
      refine h.rescan junk (.checkUpdate 0) rfl (fun _ _ => Iff.rfl) (by simp) ?_
      intro q
      simp only [hpc, Expected]
      exact ⟨fun hq => hset.2 q hq.2 hq.1, hset.1 q⟩

/-! ### A silent iteration -/

section Silent
variable {base : Path} {s t u : Client} {ok : Client → Action → Prop}

theorem count_le_of_subset (h : Tracked base s)
    (hsub : ∀ q ∈ filePaths base s.tree, q ∈ tablePaths s) :
    (filePaths base s.tree).length ≤ s.globCount := by
  obtain ⟨b, hb⟩ := h.live
  have hlen := (List.subperm_of_subset (filePaths_nodup h.names) hsub).length_le
  simpa [tablePaths_of_live hb, Block.entries] using hlen

theorem count_ge_of_subset (h : Tracked base s)
    (hsub : ∀ q ∈ tablePaths s, q ∈ filePaths base s.tree) :
    s.globCount ≤ (filePaths base s.tree).length := by
  obtain ⟨b, hb⟩ := h.live
  have hlen := (List.subperm_of_subset h.nodup hsub).length_le
  simpa [tablePaths_of_live hb, Block.entries] using hlen

theorem checkCreate_silent (h : Tracked base s) (hc : ∀ p, (s.checkCreate base).pc ≠ .created p) :
    (filePaths base s.tree).length ≤ s.globCount ∧
      s.checkCreate base = { s with pc := .checkDelete } := by
  obtain ⟨b, hb⟩ := h.live
  simp only [Client.checkCreate, readTable_of_live (h.one ▸ hb), scan_count h.fits h.few] at hc ⊢
  split
  · next hle => exact ⟨hle, rfl⟩
  next hgt =>
  simp only [hgt, if_false] at hc
  cases hm : firstMissing (scan base s.tree temp).entries (b.entries s.globCount) with
  | some e => simp [hm] at hc
  | none =>
    have hsub := firstMissing_none hm
    rw [scan_paths h.fits h.few, ← tablePaths_of_live hb] at hsub
    exact ⟨count_le_of_subset h hsub, rfl⟩

theorem checkDelete_silent (h : Tracked base s) (hc : ∀ p, (s.checkDelete base).pc ≠ .deleted p) :
    s.globCount ≤ (filePaths base s.tree).length := by
  obtain ⟨b, hb⟩ := h.live
  simp only [Client.checkDelete, readTable_of_live hb, scan_count h.fits h.few] at hc
  by_cases hge : (filePaths base s.tree).length ≥ s.globCount
  · exact hge
  simp only [hge, if_false] at hc
  cases hm : firstMissing (b.entries s.globCount) (scan base s.tree temp).entries with
  | some e => simp [hm] at hc
  | none =>
    have hsub := firstMissing_none hm
    rw [scan_paths h.fits h.few, ← tablePaths_of_live hb] at hsub
    exact count_ge_of_subset h hsub

theorem next_poll_of {a : Action} (hl : a.IsLoop) (hn : (watch base).next s a = some u)
    (hpc : ∀ p, s.pc ≠ .createRescan p ∧ s.pc ≠ .deleteRescan p) :
    a = .poll ∧ s.poll base = some u := by
  cases a with
  | env tree => exact hl.elim
  | poll => exact ⟨rfl, hn⟩
  | rescan addr junk =>
    simp only [watch, Client.next, Client.rescan] at hn
    split at hn
    · next p hp => exact ((hpc p).1 hp).elim
    · next p hp => exact ((hpc p).2 hp).elim
    · contradiction

theorem quiet_count (h : Tracked base s) (hq : Quiet base ok s t) :
    (filePaths base s.tree).length = s.globCount ∧ ok s .poll ∧ t.tree = s.tree := by
  obtain ⟨hhead, hagain, hloop, hsilent⟩ := hq
  obtain ⟨a, u, ⟨hl, ha⟩, hn, hrest⟩ := hloop.first
  have htree := next_tree hl hn
  have htree' := path₀_tree hrest
  obtain ⟨rfl, hu⟩ := next_poll_of hl hn (by simp [hhead])
  simp only [Client.poll, hhead, Option.some.injEq] at hu
  have hsent : t.sent = u.sent := by
    rw [hsilent, ← hu]
    simp only [Client.checkCreate]
    repeat' split
    all_goals rfl
  have hno := (silent_pc hrest hagain hsent).2.1
  obtain ⟨hle, hmoved⟩ := checkCreate_silent h (hu ▸ hno)
  replace hu := hu.symm.trans hmoved
  have hpc : u.pc = .checkDelete := by rw [hu]
  have htr : Tracked base u := hu ▸ h.move (by simp [hhead, Expected]) (fun _ => Iff.rfl) (by simp)
  obtain ⟨a, v, hl, -, hv, hvsent, hrest'⟩ := silent_step hrest (by simp [hpc]) hagain hsent
  obtain ⟨-, hv⟩ := next_poll_of hl hv (by simp [hpc])
  simp only [Client.poll, hpc, Option.some.injEq] at hv
  have hno' := (silent_pc hrest' hagain (by rw [hsent, hvsent])).2.2
  have hge := checkDelete_silent htr (hv ▸ hno')
  simp only [hu] at hge
  exact ⟨by omega, ha, htree'.1.trans htree.1⟩

theorem quiet_serverPaths (hq : Quiet base ok s t) : serverPaths base t = serverPaths base s := by
  obtain ⟨a, u, ⟨hl, -⟩, hn, hrest⟩ := hq.loop.first
  simp only [serverPaths, hq.silent, (path₀_tree hrest).2, (next_tree hl hn).2]

end Silent

/-- While every rescan finds one change, equal counts hide none and no entry
vanishes under `check_update`, a silent iteration means equal sets of paths. -/
theorem names_tracked (base : Path) (s t : Client)
    (hr : (watchFew base).Reaches (OneAtATime base) s)
    (hq : Quiet base (OneAtATime base) s t) (r : Path) :
    r ∈ serverPaths base t ↔ r ∈ relPaths base t.tree := by
  have h := (tracked_inductive base).holds hr
  obtain ⟨hcount, ⟨-, hone⟩, htree⟩ := quiet_count h hq
  simp only [OneChange, hq.head] at hone
  have hsub := hone hcount
  obtain ⟨b, hb⟩ := h.live
  have hlen : (tablePaths s).length ≤ (filePaths base s.tree).length := by
    simp [tablePaths_of_live hb, Block.entries, hcount]
  have hperm := (List.subperm_of_subset (filePaths_nodup h.names) hsub).perm_of_length_le hlen
  rw [quiet_serverPaths hq, h.agree, htree, mem_relPaths h.names, hperm.mem_iff]
  simp only [hq.head, Expected]

def emptyFiles : List Name → Listing
  | [] => .nil
  | name :: names => .file name 1 [] (emptyFiles names)

def secondReported : Client :=
  (((watchFew watchedDir).guarded (OneAtATime watchedDir)).run
    (.atStart watchedDir (emptyFiles [utf8 "a"]))
    [.env (emptyFiles [utf8 "a", utf8 "b"]), .poll, .poll, .rescan 0 temp, .poll, .poll, .poll,
      .poll]).get (by decide)

theorem secondReported_tracked : ∃ t, Quiet watchedDir (OneAtATime watchedDir) secondReported t ∧
    t.sent = [.create (utf8 "/b") 0] ∧
    ∀ r, r ∈ serverPaths watchedDir t ↔ r ∈ relPaths watchedDir t.tree := by
  have hs : (watchFew watchedDir).Reaches (OneAtATime watchedDir) secondReported :=
    .run (.start ⟨atStart_start _ _ (by decide) (by decide), by decide⟩) _ (Option.some_get _).symm
  have hrun : (((watch watchedDir).guarded fun s a => a.IsLoop ∧ OneAtATime watchedDir s a).run
      secondReported [.poll, .poll, .poll, .poll, .poll]).map (fun t => (t.pc, t.sent))
      = some (.checkCreate, [.create (utf8 "/b") 0]) := by decide
  obtain ⟨t, ht, hf⟩ := Option.map_eq_some_iff.mp hrun
  obtain ⟨hpc, hsent⟩ := Prod.mk.inj hf
  have hq : Quiet watchedDir (OneAtATime watchedDir) secondReported t :=
    ⟨by decide, hpc, .of_run _ ht, hsent.trans (by decide)⟩
  exact ⟨t, hq, hsent, names_tracked _ _ t hs hq⟩

def NamesTracked (base : Path) : Prop :=
  ∀ s t, (watchFew base).Reaches (OneTable base) s → Quiet base (OneTable base) s t →
    ∀ r, r ∈ serverPaths base t ↔ r ∈ relPaths base t.tree

/-- One file renamed between two polls: the counts agree, `check_update` drops
the old entry without a message and nothing is ever sent. -/
theorem rename_missed : ¬ NamesTracked watchedDir := by
  intro h
  let s : Client := { Client.atStart watchedDir (emptyFiles [utf8 "a"]) with
    tree := emptyFiles [utf8 "b"] }
  have hs : (watchFew watchedDir).Reaches (OneTable watchedDir) s :=
    .step (a := .env (emptyFiles [utf8 "b"]))
      (.start ⟨atStart_start watchedDir (emptyFiles [utf8 "a"]) (by decide) (by decide),
        by decide⟩) (by decide) rfl
  have hrun : (((watch watchedDir).guarded fun s a => a.IsLoop ∧ OneTable watchedDir s a).run s
      [.poll, .poll, .poll, .poll]).map (fun t => (t.pc, t.sent, serverPaths watchedDir t,
        relPaths watchedDir t.tree))
      = some (.checkCreate, [], [utf8 "/a"], [utf8 "/b"]) := by decide
  obtain ⟨t, ht, hf⟩ := Option.map_eq_some_iff.mp hrun
  simp only [Prod.mk.injEq] at hf
  obtain ⟨hpc, hsent, hserver, hclient⟩ := hf
  have hq : Quiet watchedDir (OneTable watchedDir) s t := ⟨rfl, hpc, .of_run _ ht, hsent⟩
  have hsame := h _ _ hs hq (utf8 "/a")
  rw [hserver, hclient] at hsame
  exact absurd hsame (by decide)

end AdvancedCProjects.Bibak
