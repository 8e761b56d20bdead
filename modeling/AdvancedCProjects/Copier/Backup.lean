import AdvancedCProjects.Copier.ByteTotal
import AdvancedCProjects.Copier.Transfer

/-!
# The copy of a tree (program.c:171-436, 439-596)

The traversal makes the directories and FIFOs and opens the files, the workers fill
the files. What one of them changes in the destination is at the path of its entry,
and no two entries have the same path.
-/

namespace AdvancedCProjects.Copier
open Base

/-- What is at the path of an entry when it has been copied; `before` is what was
there. -/
def copyOf (before : Option DestNode) : Option Leaf → Option DestNode
  | none => some .directory
  | some (.regular content) => some (.regular content)
  | some .fifo => some .fifo
  | some .other => before

def Stage.atEntry : Stage → Bool
  | .seen | .making | .regular | .fifo => true
  | _ => false

/-- The entry is one that is made in the destination. -/
def Stage.places : Stage → Bool
  | .making | .regular | .fifo => true
  | _ => false

/-- A thread has opened the files of its entry, or made the directory. -/
structure Prepared (destRoot : Bytes) (w : World) (v : Visit) (th : Traversal) : Prop where
  src : ∀ fd, th.pc.fds[0]? = some fd → w.files fd = some (.source th.srcPath 0)
  dest : ∀ fd, th.pc.fds[1]? = some fd → w.files fd = some (.dest th.destPath 0) ∧
    w.dest th.destPath = some (.regular [])
  made : th.pc = .create → w.dest th.destSubdir = some .directory
  path : th.pc.stage = .fifo → th.destPath = destRoot ++ relativePath v.path

/-- The destination has what was dealt with, and is else as it was. -/
structure Arrived (source : Source) (destRoot : Bytes) (dest : Bytes → Option DestNode)
    (tree : Forest Bytes Leaf) (size : ℕ) (s : State) (g : Names) (w : World) : Prop where
  transfers : Transfers source size s w
  threads : ∀ (k : ℕ) (th : Traversal), s.traversals[k]? = some th →
    Prepared destRoot w (g.visits k) th
  directories : ∀ r, (r, FileType.directory) ∈ w.done →
    w.dest (destRoot ++ relativePath r) = some .directory
  fifos : ∀ r, (r, FileType.fifo) ∈ w.done → w.dest (destRoot ++ relativePath r) = some .fifo
  regular : (w.done.filter fun e => e.2 = .regular).map Prod.fst = g.tasks
  frame : ∀ path, (∀ e ∈ entries (tree.visits []), e.2 ≠ .other →
    path ≠ destRoot ++ relativePath e.1) → w.dest path = dest path

section Entries
variable {source : Source} {sourceDir destRoot root : Bytes} {tree f : Forest Bytes Leaf}
  {size threads i k : ℕ} {s t : State} {g g' : Names} {w w' : World} {th th' : Traversal}
  {created : List Traversal} {rests : ℕ → Forest Bytes Leaf} {v : Visit} {stream : List Bytes}
  {e e' : List Bytes × FileType} {a b : Added} {r : List Bytes}

/-! ### The entries and their paths -/

theorem mem_entries (h : e ∈ entries (tree.visits [])) :
    ∃ x, (e.1, x) ∈ tree.visits [] ∧ e.2 = kind x := by
  obtain ⟨⟨path, x⟩, hmem, rfl⟩ := List.mem_map.mp h
  exact ⟨x, hmem, rfl⟩

theorem Stored.nodup (h : Stored source sourceDir destRoot tree) :
    ((entries (tree.visits [])).map Prod.fst).Nodup := by
  rw [entries, List.map_map]
  exact Forest.visits_nodup h.distinct []

theorem Stored.entry_fits (h : Stored source sourceDir destRoot tree)
    (he : e ∈ entries (tree.visits [])) : Fits sourceDir destRoot e.1 := by
  obtain ⟨x, hmem, -⟩ := mem_entries he
  exact h.fits _ hmem

theorem Stored.path_inj (h : Stored source sourceDir destRoot tree)
    (he : e ∈ entries (tree.visits [])) (he' : e' ∈ entries (tree.visits []))
    (heq : root ++ relativePath e.1 = root ++ relativePath e'.1) : e.1 = e'.1 := by
  obtain ⟨x, hmem, -⟩ := mem_entries he
  obtain ⟨x', hmem', -⟩ := mem_entries he'
  exact relativePath_inj (h.names _ hmem) (h.names _ hmem') (List.append_cancel_left heq)

/-- An entry is at one path only. -/
theorem Stored.entry_eq (h : Stored source sourceDir destRoot tree)
    (he : e ∈ entries (tree.visits [])) (he' : e' ∈ entries (tree.visits []))
    (heq : root ++ relativePath e.1 = root ++ relativePath e'.1) : e = e' :=
  List.inj_on_of_nodup_map h.nodup he he' (h.path_inj he he' heq)

theorem Walk.done_sub (h : Walk source sourceDir tree s g w rests) (he : e ∈ w.done) :
    e ∈ entries (tree.visits []) := by
  by_cases hnil : s.traversals = []
  · rw [h.fresh hnil] at he
    exact absurd he List.not_mem_nil
  · rw [← h.all hnil]
    exact List.mem_append_left _ he

theorem Walk.done_nodup (h : Walk source sourceDir tree s g w rests)
    (hstored : Stored source sourceDir destRoot tree) : (w.done.map Prod.fst).Nodup := by
  by_cases hnil : s.traversals = []
  · rw [h.fresh hnil]
    exact List.nodup_nil
  · have hnodup := hstored.nodup
    rw [← h.all hnil, List.map_append] at hnodup
    exact hnodup.of_append_left

theorem At.visits (h : At source sourceDir v stream f th.pc.stage)
    (hstage : th.pc.stage.atEntry = true) : ∃ x more, f.visits v.dir = (v.path, x) :: more ∧
      (th.pc.stage.places = true → kind x ≠ .other) := by
  generalize th.pc.stage = stage at h hstage
  cases stage with
  | seen =>
    rcases Forest.names_eq_cons h with ⟨value, rest, rfl, -⟩ | ⟨sub, rest, rfl, -⟩
    · exact ⟨some value, _, rfl, nofun⟩
    · exact ⟨none, _, rfl, nofun⟩
  | making =>
    obtain ⟨sub, rest, rfl, -⟩ := h
    exact ⟨none, _, rfl, nofun⟩
  | regular =>
    obtain ⟨content, rest, rfl, -⟩ := h
    exact ⟨some (.regular content), _, rfl, nofun⟩
  | fifo =>
    obtain ⟨rest, rfl, -⟩ := h
    exact ⟨some .fifo, _, rfl, nofun⟩
  | _ => contradiction

theorem TraversalPc.acts_of_atEntry {pc : TraversalPc} (h : pc.stage.atEntry = true) :
    pc.acts = true := by
  cases pc with
  | join => contradiction
  | exited => contradiction
  | _ => rfl

/-- The entry that a thread is at has not been dealt with. -/
theorem Walk.current (h : Walk source sourceDir tree s g w rests) (hn : Nested s)
    (hth : s.traversals[i]? = some th) (hstage : th.pc.stage.atEntry = true) :
    ∃ type more, w.done ++ ((g.visits i).path, type) :: more = entries (tree.visits []) ∧
      (th.pc.stage.places = true → type ≠ .other) := by
  obtain ⟨x, more, hvisits, hother⟩ := At.visits (h.walkers i th hth).place hstage
  have hnext := h.next hn hth (TraversalPc.acts_of_atEntry hstage)
  rw [hvisits, List.append_assoc] at hnext
  exact ⟨kind x, _, hnext, hother⟩

theorem Walk.current_mem (h : Walk source sourceDir tree s g w rests) (hn : Nested s)
    (hth : s.traversals[i]? = some th) (hstage : th.pc.stage.atEntry = true) :
    ∃ type, ((g.visits i).path, type) ∈ entries (tree.visits []) ∧
      (th.pc.stage.places = true → type ≠ .other) := by
  obtain ⟨type, more, hsplit, hother⟩ := h.current hn hth hstage
  refine ⟨type, ?_, hother⟩
  rw [← hsplit]
  exact List.mem_append_right _ List.mem_cons_self

theorem Walk.current_fits (h : Walk source sourceDir tree s g w rests) (hn : Nested s)
    (hstored : Stored source sourceDir destRoot tree)
    (hth : s.traversals[i]? = some th) (hstage : th.pc.stage.atEntry = true) :
    Fits sourceDir destRoot (g.visits i).path := by
  obtain ⟨type, hmem, -⟩ := h.current_mem hn hth hstage
  exact hstored.entry_fits hmem

theorem Walk.current_new (h : Walk source sourceDir tree s g w rests) (hn : Nested s)
    (hstored : Stored source sourceDir destRoot tree)
    (hth : s.traversals[i]? = some th) (hstage : th.pc.stage.atEntry = true) (he : e ∈ w.done) :
    root ++ relativePath e.1 ≠ root ++ relativePath (g.visits i).path := by
  intro heq
  obtain ⟨type, more, hsplit, -⟩ := h.current hn hth hstage
  have hmem : ((g.visits i).path, type) ∈ entries (tree.visits []) := by
    rw [← hsplit]
    exact List.mem_append_right _ List.mem_cons_self
  have hpath : e.1 = (g.visits i).path := hstored.path_inj (h.done_sub he) hmem heq
  have hnodup := hstored.nodup
  rw [← hsplit, List.map_append] at hnodup
  exact List.disjoint_of_nodup_append hnodup (List.mem_map_of_mem he)
    (hpath ▸ List.mem_cons_self)

/-! ### The tasks and their paths -/

theorem PathsOk.added_path (hp : PathsOk sourceDir destRoot s g)
    (hw : Walk source sourceDir tree s g w rests)
    (hstored : Stored source sourceDir destRoot tree)
    (hregular : (w.done.filter fun e => e.2 = .regular).map Prod.fst = g.tasks) :
    List.Forall₂ (fun a r => (r, FileType.regular) ∈ w.done ∧
      a.source = sourceDir ++ relativePath r ∧ a.dest = destRoot ++ relativePath r)
      s.added g.tasks := by
  have hdone (r : List Bytes) (hr : r ∈ g.tasks) : (r, FileType.regular) ∈ w.done := by
    rw [← hregular] at hr
    obtain ⟨⟨path, type⟩, hmem, rfl⟩ := List.mem_map.mp hr
    obtain ⟨hmem, htype⟩ := List.mem_filter.mp hmem
    have htype : type = .regular := by simpa using htype
    exact htype ▸ hmem
  refine List.forall₂_iff_get.mpr ⟨hp.tasks.length_eq, fun j hj hj' => ?_⟩
  obtain ⟨hsource, hdest⟩ := hp.tasks.get hj hj'
  have hmem := hdone _ (List.get_mem g.tasks ⟨j, hj'⟩)
  have hfits : Fits sourceDir destRoot (g.tasks.get ⟨j, hj'⟩) :=
    hstored.entry_fits (hw.done_sub hmem)
  exact ⟨hmem, hsource.trans hfits.srcPath, hdest.trans hfits.destPath⟩

theorem apart_of_paths (hpaths : List.Forall₂ (fun a r => (r, FileType.regular) ∈ w.done ∧
      a.source = sourceDir ++ relativePath r ∧ a.dest = destRoot ++ relativePath r)
      s.added g.tasks) (hw : Walk source sourceDir tree s g w rests)
    (hstored : Stored source sourceDir destRoot tree)
    (hregular : (w.done.filter fun e => e.2 = .regular).map Prod.fst = g.tasks) :
    Apart s.added := by
  have hnodup : g.tasks.Nodup := by
    rw [← hregular]
    exact (hw.done_nodup hstored).sublist (List.filter_sublist.map _)
  intro a ha b hb hne
  obtain ⟨hlength, hget⟩ := List.forall₂_iff_get.mp hpaths
  obtain ⟨⟨j, hj⟩, rfl⟩ := List.mem_iff_get.mp ha
  obtain ⟨⟨k, hk⟩, rfl⟩ := List.mem_iff_get.mp hb
  obtain ⟨hdone, hsource, hdest⟩ := hget j hj (hlength ▸ hj)
  obtain ⟨hdone', hsource', hdest'⟩ := hget k hk (hlength ▸ hk)
  have hpath : g.tasks.get ⟨j, hlength ▸ hj⟩ ≠ g.tasks.get ⟨k, hlength ▸ hk⟩ := by
    intro heq
    have hjk := (hnodup.get_inj_iff).mp heq
    cases hjk
    exact hne rfl
  refine ⟨fun heq => hpath ?_, fun heq => hpath ?_⟩
  · rw [hsource, hsource'] at heq
    exact hstored.path_inj (hw.done_sub hdone) (hw.done_sub hdone') heq
  · rw [hdest, hdest'] at heq
    exact hstored.path_inj (hw.done_sub hdone) (hw.done_sub hdone') heq

end Entries

/-! ### A step of the traversal -/

section Traverse
variable {source : Source} {sourceDir destRoot : Bytes} {tree : Forest Bytes Leaf}
  {dest : Bytes → Option DestNode} {size threads i k : ℕ} {s t : State} {g g' : Names}
  {w w' : World} {th th' : Traversal} {created : List Traversal}
  {rests : ℕ → Forest Bytes Leaf} {v : Visit} {a : Added} {r : List Bytes}

theorem TreeStep.files (h : TreeStep source size s g w i th th' created g' w' t) :
    (∀ fd ∈ s.fds, w'.files fd = w.files fd) ∧ w'.bufs = w.bufs := by
  cases h with
  | openSrc _ hfd | openDest _ hfd =>
    refine ⟨fun fd hmem => Function.update_of_ne ?_ _ _, rfl⟩
    rintro rfl
    exact hfd hmem
  | _ => exact ⟨fun _ _ => rfl, rfl⟩

/-- What a thread changes in the destination is at its entry. -/
theorem TreeStep.writes (h : TreeStep source size s g w i th th' created g' w' t)
    (hprep : Prepared destRoot w (g.visits i) th)
    (hhold : Holding sourceDir destRoot th (g.visits i))
    (hfits : th.pc.stage.atEntry = true → Fits sourceDir destRoot (g.visits i).path) :
    w'.dest = w.dest ∨ th.pc.stage.places = true ∧
      ∀ path, path ≠ destRoot ++ relativePath (g.visits i).path → w'.dest path = w.dest path := by
  cases h with
  | mkdir hpc =>
    refine .inr ⟨by rw [hpc]; rfl, fun path hne => Function.update_of_ne ?_ _ _⟩
    have hfit := hfits (by rw [hpc]; rfl)
    rwa [hhold.destSubdir (by rw [hpc]; rfl), hfit.destPath]
  | openDest hpc =>
    refine .inr ⟨by rw [hpc]; rfl, fun path hne => Function.update_of_ne ?_ _ _⟩
    have hfit := hfits (by rw [hpc]; rfl)
    rwa [hhold.destPath (by rw [hpc]; rfl), hfit.destPath]
  | unlink hpc | mkfifo hpc =>
    refine .inr ⟨by rw [hpc]; rfl, fun path hne => Function.update_of_ne ?_ _ _⟩
    rwa [hprep.path (by rw [hpc]; rfl)]
  | _ => exact .inl rfl

theorem Prepared.idle (hfds : th.pc.fds = []) (hcreate : th.pc ≠ .create)
    (hstage : th.pc.stage ≠ .fifo) : Prepared destRoot w v th := by
  refine ⟨fun fd hfd => ?_, fun fd hfd => ?_, fun hpc => absurd hpc hcreate,
    fun hfifo => absurd hfifo hstage⟩
  · rw [hfds] at hfd
    contradiction
  · rw [hfds] at hfd
    contradiction

theorem TreeStep.prepared (h : TreeStep source size s g w i th th' created g' w' t)
    (hprep : Prepared destRoot w (g.visits i) th)
    (hhold : Holding sourceDir destRoot th (g.visits i))
    (hfits : th.pc.stage.atEntry = true → Fits sourceDir destRoot (g.visits i).path)
    (hopen : ∀ fd ∈ th.pc.fds, fd ∈ s.fds) : Prepared destRoot w' (g'.visits i) th' := by
  cases h with
  | onward hstage hfds _ hcreate =>
    refine ⟨fun fd hfd => ?_, fun fd hfd => ?_, fun hpc => absurd hpc hcreate, fun hfifo => ?_⟩
    · exact hprep.src fd (hfds ▸ hfd)
    · exact hprep.dest fd (hfds ▸ hfd)
    · exact hprep.path (hstage ▸ hfifo)
  | @counted o _ _ hbetween =>
    cases o with
    | directory | regularFile | fifo => exact .idle rfl nofun nofun
    | _ => contradiction
  | fifo hpc =>
    refine ⟨nofun, nofun, nofun, fun _ => ?_⟩
    have hfit := hfits (by rw [hpc]; rfl)
    rw [hhold.destPath (by rw [hpc]; rfl), hfit.destPath]
  | mkdir hpc =>
    exact ⟨nofun, nofun, fun _ => Function.update_self .., nofun⟩
  | @openSrc name fd _ hpc hnew =>
    refine ⟨fun fd' hfd => ?_, nofun, nofun, nofun⟩
    obtain rfl : fd = fd' := Option.some.inj hfd
    exact Function.update_self ..
  | @openDest name srcFd fd _ hpc hnew =>
    have hsrc : srcFd ≠ fd := by
      rintro rfl
      exact hnew (hopen srcFd (by rw [hpc]; exact List.mem_cons_self))
    refine ⟨fun fd' hfd => ?_, fun fd' hfd => ?_, nofun, nofun⟩
    · obtain rfl : srcFd = fd' := Option.some.inj hfd
      refine (Function.update_of_ne hsrc ..).trans (hprep.src srcFd ?_)
      rw [hpc]
      rfl
    · obtain rfl : fd = fd' := Option.some.inj hfd
      exact ⟨Function.update_self .., Function.update_self ..⟩
  | unlink hpc =>
    exact ⟨nofun, nofun, nofun, fun _ => hprep.path (by rw [hpc]; rfl)⟩
  | _ => exact .idle rfl nofun nofun

/-- A thread that has dealt with its entry has put it in its place. -/
theorem TreeStep.done (h : TreeStep source size s g w i th th' created g' w' t)
    (hprep : Prepared destRoot w (g.visits i) th)
    (hhold : Holding sourceDir destRoot th (g.visits i))
    (hfits : th.pc.stage.atEntry = true → Fits sourceDir destRoot (g.visits i).path) :
    w'.done = w.done ∧ g'.tasks = g.tasks ∨
    ∃ type, w'.done = w.done ++ [((g.visits i).path, type)] ∧ th.pc.stage.atEntry = true ∧
      (type = .directory →
        w'.dest (destRoot ++ relativePath (g.visits i).path) = some .directory) ∧
      (type = .fifo → w'.dest (destRoot ++ relativePath (g.visits i).path) = some .fifo) ∧
      g'.tasks = g.tasks ++ if type = .regular then [(g.visits i).path] else [] := by
  cases h with
  | other hpc => exact .inr ⟨.other, rfl, by rw [hpc]; rfl, nofun, nofun, (List.append_nil _).symm⟩
  | create hpc =>
    refine .inr ⟨.directory, rfl, by rw [hpc]; rfl, fun _ => ?_, nofun, (List.append_nil _).symm⟩
    have hfit := hfits (by rw [hpc]; rfl)
    rw [← hfit.destPath, ← hhold.destSubdir (by rw [hpc]; rfl)]
    exact hprep.made hpc
  | add hpc => exact .inr ⟨.regular, rfl, by rw [hpc]; rfl, nofun, nofun, rfl⟩
  | mkfifo hpc =>
    refine .inr ⟨.fifo, rfl, by rw [hpc]; rfl, nofun, fun _ => ?_, (List.append_nil _).symm⟩
    rw [← hprep.path (by rw [hpc]; rfl)]
    exact Function.update_self ..
  | _ => exact .inl ⟨rfl, rfl⟩

/-- What holds of a whole state of the program and its files. -/
structure Backup (source : Source) (sourceDir destRoot : Bytes) (dest : Bytes → Option DestNode)
    (tree : Forest Bytes Leaf) (size : ℕ) (s : State) (g : Names) (w : World) : Prop where
  invariant : Invariant size s
  walking : Walking source sourceDir destRoot tree ((s, g), w)
  arrived : Arrived source destRoot dest tree size s g w

theorem TraversalPc.atEntry_of_fds {pc : TraversalPc} (h : pc.stage ≠ .failed) {fd : ℕ}
    (hfd : fd ∈ pc.fds) : pc.stage.atEntry = true ∧ pc.atEntry = true := by
  cases pc with
  | lockOutput o | inOutput o | unlockOutput o => cases o <;> contradiction
  | closeSrc => exact absurd rfl h
  | openDest | insert | lockBuffer | testFull | wait | asleep | woken | add => exact ⟨rfl, rfl⟩
  | _ => contradiction

theorem Backup.paths (h : Backup source sourceDir destRoot dest tree size s g w)
    (hstored : Stored source sourceDir destRoot tree) :
    List.Forall₂ (fun a r => (r, FileType.regular) ∈ w.done ∧
      a.source = sourceDir ++ relativePath r ∧ a.dest = destRoot ++ relativePath r)
      s.added g.tasks := by
  obtain ⟨rests, hwalk⟩ := h.walking.walk
  exact h.walking.paths.added_path hwalk hstored h.arrived.regular

theorem Backup.apart (h : Backup source sourceDir destRoot dest tree size s g w)
    (hstored : Stored source sourceDir destRoot tree) : Apart s.added := by
  obtain ⟨rests, hwalk⟩ := h.walking.walk
  exact apart_of_paths (h.paths hstored) hwalk hstored h.arrived.regular

/-- A file that has been opened for a task is not at the entry of a thread. -/
theorem Backup.added_ne (h : Backup source sourceDir destRoot dest tree size s g w)
    (hstored : Stored source sourceDir destRoot tree) (hth : s.traversals[i]? = some th)
    (hstage : th.pc.stage.atEntry = true) (ha : a ∈ s.added) :
    a.source ≠ sourceDir ++ relativePath (g.visits i).path ∧
      a.dest ≠ destRoot ++ relativePath (g.visits i).path := by
  obtain ⟨rests, hwalk⟩ := h.walking.walk
  obtain ⟨r, -, hdone, hsource, hdest⟩ := mem_left_of_forall₂ (h.paths hstored) ha
  rw [hsource, hdest]
  exact ⟨hwalk.current_new h.walking.nested hstored hth hstage hdone,
    hwalk.current_new h.walking.nested hstored hth hstage hdone⟩

theorem Backup.fits (h : Backup source sourceDir destRoot dest tree size s g w)
    (hstored : Stored source sourceDir destRoot tree) (hth : s.traversals[i]? = some th)
    (hstage : th.pc.stage.atEntry = true) : Fits sourceDir destRoot (g.visits i).path := by
  obtain ⟨rests, hwalk⟩ := h.walking.walk
  exact hwalk.current_fits h.walking.nested hstored hth hstage

theorem Backup.fine (h : Backup source sourceDir destRoot dest tree size s g w)
    (hth : s.traversals[i]? = some th) : th.pc.stage ≠ .failed := by
  obtain ⟨rests, hwalk⟩ := h.walking.walk
  have hplace := (hwalk.walkers i th hth).place
  intro hfailed
  rwa [hfailed] at hplace

theorem Invariant.thread_open (hi : Invariant size s) (hth : s.traversals[i]? = some th) {fd : ℕ}
    (hfd : fd ∈ th.pc.fds) : fd ∈ s.fds :=
  hi.fd_open (.inr (List.mem_flatMap.mpr ⟨th, List.mem_of_getElem? hth, hfd⟩))

/-- A thread that waits, or has exited, has nothing prepared. -/
theorem Prepared.of_idle (h : th.pc.acts = false) : Prepared destRoot w v th := by
  cases hpc : th.pc with
  | join | exited => exact .idle (by rw [hpc]; rfl) (by rw [hpc]; nofun) (by rw [hpc]; nofun)
  | _ =>
    rw [hpc] at h
    contradiction

theorem TreeStep.created_pc (h : TreeStep source size s g w i th th' created g' w' t)
    {child : Traversal} (hchild : child ∈ created) : child.pc = .opendir := by
  rcases h.created_nil_or with rfl | ⟨-, -, rfl, -, -⟩
  · exact absurd hchild List.not_mem_nil
  · rw [List.mem_singleton.mp hchild]
    rfl

/-- The file that a thread is at is a regular file of the source. -/
theorem Backup.content (h : Backup source sourceDir destRoot dest tree size s g w)
    (hstored : Stored source sourceDir destRoot tree) (hth : s.traversals[i]? = some th)
    (hstage : th.pc.stage = .regular) (hentry : th.pc.atEntry = true) :
    ∃ content, source.content th.srcPath = some content := by
  obtain ⟨rests, hwalk⟩ := h.walking.walk
  have hwalker := hwalk.walkers i th hth
  have hplace := hwalker.place
  rw [hstage] at hplace
  obtain ⟨content, rest, hrest, -⟩ := hplace
  have hmounted := hwalker.mounted
  rw [hrest] at hmounted
  have hfit := h.fits hstored hth (by rw [hstage]; rfl)
  have hsource : source (sourceDir ++ relativePath (g.visits i).path) =
      some (.leaf (.regular content)) := hmounted.1
  refine ⟨content, ?_⟩
  rw [(h.walking.paths.holding i th hth).srcPath hentry, hfit.srcPath, Source.content, hsource]
  rfl

theorem TreeStep.sameBuffer_or (h : TreeStep source size s g w i th th' created g' w' t) :
    s.SameBuffer t ∨ ∃ file, th.pc = .add file ∧
      t.buffer = s.buffer.put size ⟨file.srcFd, file.destFd, .destPath i⟩ ∧
      t.added = s.added ++
        [⟨⟨file.srcFd, file.destFd, .destPath i⟩, file.name, th.srcPath, th.destPath⟩] ∧
      w'.files = w.files ∧ w'.dest = w.dest ∧ w'.bufs = w.bufs := by
  cases h with
  | onward _ _ _ _ hsame => exact .inl hsame.toSameBuffer
  | counted _ _ _ hsame => exact .inl hsame
  | opened _ _ hsame | entry _ _ hsame | ended _ _ hsame | directory _ _ hsame
  | regular _ _ hsame | fifo _ _ hsame | other _ _ hsame | mkdir _ _ hsame
  | openSrc _ _ hsame | openDest _ _ hsame => exact .inl hsame.toSameBuffer
  | create _ hsame | unlink _ hsame | mkfifo _ hsame => exact .inl hsame.toSameBuffer
  | @add file _ hpc _ hbuffer hadded => exact .inr ⟨file, hpc, hbuffer, hadded, rfl, rfl, rfl⟩

theorem Stage.atEntry_of_places {stage : Stage} (h : stage.places = true) :
    stage.atEntry = true := by
  cases stage <;> first | rfl | contradiction

/-- A thread leaves the files of the tasks alone. -/
theorem Backup.tasks_kept (h : Backup source sourceDir destRoot dest tree size s g w)
    (hstored : Stored source sourceDir destRoot tree) (hth : s.traversals[i]? = some th)
    (hmove : TreeStep source size s g w i th th' created g' w' t) (ha : a ∈ s.added) :
    w'.dest a.dest = w.dest a.dest := by
  have hhold := h.walking.paths.holding i th hth
  rcases hmove.writes (h.arrived.threads i th hth) hhold (h.fits hstored hth) with
    hsame | ⟨hstage, hsame⟩
  · rw [hsame]
  · exact hsame _ (h.added_ne hstored hth (Stage.atEntry_of_places hstage) ha).2

theorem Backup.traverse (h : Backup source sourceDir destRoot dest tree size s g w)
    (hstored : Stored source sourceDir destRoot tree) {reply : Reply}
    (hth : s.traversals[i]? = some th) (hn : s.traverse size i th th.pc reply = some t)
    (hmoved : TreeMoved source size s g w i th t g' w') (hfds : t.fds.Nodup) :
    Arrived source destRoot dest tree size t g' w' := by
  obtain ⟨th', created, ht, hmove⟩ := hmoved
  obtain ⟨rests, hwalk⟩ := h.walking.walk
  have hnested := h.walking.nested
  have harrived := h.arrived
  have hi := h.invariant
  have hprep := harrived.threads i th hth
  have hhold := h.walking.paths.holding i th hth
  have hlt := (List.getElem?_eq_some_iff.mp hth).1
  have hfits (hstage : th.pc.stage.atEntry = true) := h.fits hstored hth hstage
  have hwrites := hmove.writes hprep hhold hfits
  have hhands : s.SameHands t := .traverse hth hn
  have hdests (a : Added) (ha : a ∈ s.added) := h.tasks_kept hstored hth hmove ha
  have hdone (e : List Bytes × FileType) (he : e ∈ w.done) :
      w'.dest (destRoot ++ relativePath e.1) = w.dest (destRoot ++ relativePath e.1) := by
    rcases hwrites with hsame | ⟨hstage, hsame⟩
    · rw [hsame]
    · exact hsame _ (hwalk.current_new hnested hstored hth (Stage.atEntry_of_places hstage) he)
  have hmade := hmove.done hprep hhold hfits
  refine ⟨?_, fun k x hk => ?_, fun r hr => ?_, fun r hr => ?_, ?_, fun path hpath => ?_⟩
  · obtain ⟨hfiles, hbufs⟩ := hmove.files
    rcases hmove.sameBuffer_or with hsame | ⟨file, hpc, hbuffer, hadded, hfiles, hdest, hbufs⟩
    · exact harrived.transfers.frame hi hhands hsame hfds hfiles hdests hbufs
    · obtain ⟨content, hcontent⟩ := h.content hstored hth (by rw [hpc]; rfl) (by rw [hpc]; rfl)
      obtain ⟨hdestFd, hempty⟩ := hprep.dest file.destFd (by rw [hpc]; rfl)
      exact harrived.transfers.add hi hth hpc hhands hbuffer hadded hfds hcontent
        (hprep.src file.srcFd (by rw [hpc]; rfl)) hdestFd hempty hfiles hdest hbufs
  · by_cases hki : k = i
    · subst hki
      rw [getElem?_mover ht hth] at hk
      cases hk
      exact hmove.prepared hprep hhold hfits fun fd hfd => hi.thread_open hth hfd
    · rw [ht, List.getElem?_append] at hk
      split at hk
      · next hklt =>
        rw [List.getElem?_set_ne (Ne.symm hki)] at hk
        rcases hmove.acts with hacts | ⟨-, rfl, rfl, -⟩
        · refine .of_idle (Bool.eq_false_iff.mpr fun hacts' => hki ?_)
          exact hnested.serial.chain.acts_unique hk hth hacts' hacts
        · exact harrived.threads k x hk
      · have hpc := hmove.created_pc (List.mem_of_getElem? hk)
        exact .idle (by rw [hpc]; rfl) (by rw [hpc]; nofun) (by rw [hpc]; nofun)
  · rcases hmade with ⟨hsame, -⟩ | ⟨type, hnew, -, hdirectory, -, -⟩
    · rw [hsame] at hr
      exact (hdone _ hr).trans (harrived.directories r hr)
    · rw [hnew] at hr
      rcases List.mem_append.mp hr with hr | hr
      · exact (hdone _ hr).trans (harrived.directories r hr)
      · obtain ⟨rfl, rfl⟩ := Prod.mk.inj (List.mem_singleton.mp hr)
        exact hdirectory rfl
  · rcases hmade with ⟨hsame, -⟩ | ⟨type, hnew, -, -, hfifo, -⟩
    · rw [hsame] at hr
      exact (hdone _ hr).trans (harrived.fifos r hr)
    · rw [hnew] at hr
      rcases List.mem_append.mp hr with hr | hr
      · exact (hdone _ hr).trans (harrived.fifos r hr)
      · obtain ⟨rfl, rfl⟩ := Prod.mk.inj (List.mem_singleton.mp hr)
        exact hfifo rfl
  · rcases hmade with ⟨hsame, htasks⟩ | ⟨type, hnew, -, -, -, htasks⟩
    · rw [hsame, htasks]
      exact harrived.regular
    · rw [hnew, htasks, List.filter_append, List.map_append, harrived.regular]
      congr 1
      by_cases htype : type = .regular
      · simp [htype]
      · simp [htype]
  · refine Eq.trans ?_ (harrived.frame path hpath)
    rcases hwrites with hsame | ⟨hstage, hsame⟩
    · rw [hsame]
    · obtain ⟨type, hmem, hother⟩ := hwalk.current_mem hnested hth (Stage.atEntry_of_places hstage)
      exact hsame path (hpath _ hmem (hother hstage))

end Traverse

/-! ### The other steps -/

section Others
variable {source : Source} {sourceDir destRoot : Bytes} {tree : Forest Bytes Leaf}
  {dest : Bytes → Option DestNode} {size threads i k : ℕ} {s t u : State} {g : Names}
  {w w' : World} {th : Traversal} {pc pc' : WorkerPc} {r : Reply}

/-- A worker leaves what a thread has prepared. -/
theorem Backup.prepared_work (h : Backup source sourceDir destRoot dest tree size s g w)
    (hstored : Stored source sourceDir destRoot tree) (hpc : s.workers[i]? = some pc)
    (hmove : WorkStep source s w i pc pc' w') (hth : s.traversals[k]? = some th) :
    Prepared destRoot w' (g.visits k) th := by
  have harrived := h.arrived
  have hprep := harrived.threads k th hth
  have hhold := h.walking.paths.holding k th hth
  obtain ⟨htouches, hdests⟩ := harrived.transfers.touches hpc hmove
  have hclosing (fd : ℕ) (hfd : fd ∈ th.pc.fds) :
      ¬ (pc.copying = none ∧ .closed fd ∈ pc.todo) := fun hclose =>
    (h.invariant.closing_apart harrived.transfers.fds hpc hclose.1 hclose.2).2
      (List.mem_flatMap.mpr ⟨th, List.mem_of_getElem? hth, hfd⟩)
  have hsrcPath (fd : ℕ) (hfd : fd ∈ th.pc.fds) (b : Added) (hb : b ∈ s.added) :
      b.source ≠ th.srcPath ∧ b.dest ≠ th.destPath := by
    obtain ⟨hstage, hentry⟩ := TraversalPc.atEntry_of_fds (h.fine hth) hfd
    have hfit := h.fits hstored hth hstage
    rw [hhold.srcPath hentry, hhold.destPath hentry, hfit.srcPath, hfit.destPath]
    exact h.added_ne hstored hth hstage hb
  have keep {fd : ℕ} {x : Opened} (hfd : fd ∈ th.pc.fds) (hfile : w.files fd = some x)
      (hx : x = .source th.srcPath 0 ∨ x = .dest th.destPath 0) : w'.files fd = some x := by
    rcases htouches fd with hsame | ⟨b, hb, ⟨content, offset, hupto⟩, hown⟩ | hclose
    · rw [hsame, hfile]
    · obtain ⟨hsource, hdest⟩ := hsrcPath fd hfd b hb
      obtain ⟨o, hsrc⟩ := hupto.srcFd
      have hdestFd := hupto.destFd
      exfalso
      rcases hown with rfl | rfl
      · rw [hfile] at hsrc
        rcases hx with rfl | rfl
        · exact hsource (Opened.source.inj (Option.some.inj hsrc)).1.symm
        · cases hsrc
      · rw [hfile] at hdestFd
        rcases hx with rfl | rfl
        · cases hdestFd
        · exact hdest (Opened.dest.inj (Option.some.inj hdestFd)).1.symm
    · exact absurd hclose (hclosing fd hfd)
  refine ⟨fun fd hfd => ?_, fun fd hfd => ⟨?_, ?_⟩, fun hcreate => ?_, hprep.path⟩
  · exact keep (List.mem_of_getElem? hfd) (hprep.src fd hfd) (.inl rfl)
  · exact keep (List.mem_of_getElem? hfd) (hprep.dest fd hfd).1 (.inr rfl)
  · rcases hdests th.destPath with hsame | ⟨b, hb, hpath⟩
    · rw [hsame, (hprep.dest fd hfd).2]
    · exact absurd hpath.symm (hsrcPath fd (List.mem_of_getElem? hfd) b hb).2
  · rcases hdests th.destSubdir with hsame | ⟨b, hb, hpath⟩
    · rw [hsame, hprep.made hcreate]
    · have hstage : th.pc.stage.atEntry = true := by rw [hcreate]; rfl
      have hfit := h.fits hstored hth hstage
      rw [hhold.destSubdir (by rw [hcreate]; rfl), hfit.destPath] at hpath
      exact absurd hpath.symm (h.added_ne hstored hth hstage hb).2

theorem Prepared.wakes {v : ℕ → Visit}
    (h : ∀ (k : ℕ) (th : Traversal), s.traversals[k]? = some th → Prepared destRoot w (v k) th)
    (hu : s.WakesTraversal u) (k : ℕ) (th : Traversal) (hk : u.traversals[k]? = some th) :
    Prepared destRoot w (v k) th := by
  cases hu with
  | nobody => exact h k th hk
  | @one j x file hj hpc =>
    rcases getElem?_set_some hk with ⟨rfl, rfl⟩ | ⟨-, hold⟩
    · have hprep := h k x hj
      refine ⟨fun fd hfd => hprep.src fd ?_, fun fd hfd => hprep.dest fd ?_, nofun, nofun⟩
      · rw [hpc]
        exact hfd
      · rw [hpc]
        exact hfd
    · exact h k th hold

theorem Backup.work (h : Backup source sourceDir destRoot dest tree size s g w)
    (hstored : Stored source sourceDir destRoot tree) (hpc : s.workers[i]? = some pc)
    (hwork : s.work size i pc r = some t) (hw : w.work source i pc r = some w')
    (hfds : t.fds.Nodup) : Arrived source destRoot dest tree size t g w' := by
  have harrived := h.arrived
  obtain ⟨rests, hwalk⟩ := h.walking.walk
  obtain ⟨pc', -, -, hmove⟩ := work_step hwork hw (harrived.transfers.fine i pc hpc)
  obtain ⟨-, hdests⟩ := harrived.transfers.touches hpc hmove
  obtain ⟨-, hdone⟩ := World.work_walk hw
  have hadded (b : Added) (hb : b ∈ s.added) := mem_left_of_forall₂ (h.paths hstored) hb
  have hkept {r : List Bytes} {type : FileType} (hr : (r, type) ∈ w.done)
      (htype : type ≠ .regular) :
      w'.dest (destRoot ++ relativePath r) = w.dest (destRoot ++ relativePath r) := by
    rcases hdests (destRoot ++ relativePath r) with hsame | ⟨b, hb, hpath⟩
    · exact hsame
    · obtain ⟨r', -, hr', -, hdest⟩ := hadded b hb
      have heq := hstored.entry_eq (hwalk.done_sub hr) (hwalk.done_sub hr') (hpath.trans hdest)
      exact absurd (Prod.mk.inj heq).2 htype
  refine ⟨harrived.transfers.work h.invariant (h.apart hstored) hpc hwork hw hfds,
    fun k th hk => ?_, fun r hr => ?_, fun r hr => ?_, ?_, fun path hpath => ?_⟩
  · obtain ⟨pc'', v, hwmove, rfl⟩ := State.work_move hwork
    obtain ⟨-, -, u, hu, -, hts⟩ := hwmove.wakes
    exact Prepared.wakes (fun k th hth => h.prepared_work hstored hpc hmove hth) hu k th (hts ▸ hk)
  · rw [hdone] at hr
    exact (hkept hr nofun).trans (harrived.directories r hr)
  · rw [hdone] at hr
    exact (hkept hr nofun).trans (harrived.fifos r hr)
  · rw [hdone]
    exact harrived.regular
  · refine Eq.trans ?_ (harrived.frame path hpath)
    rcases hdests path with hsame | ⟨b, hb, hown⟩
    · exact hsame
    · obtain ⟨r', -, hr', -, hdest⟩ := hadded b hb
      exact absurd (hown.trans hdest) (hpath _ (hwalk.done_sub hr') nofun)

/-- The world stays as it is. -/
theorem Backup.quiet (h : Backup source sourceDir destRoot dest tree size s g w)
    (hhands : s.SameHands t) (hbuffer : s.SameBuffer t) (hfds : t.fds.Nodup)
    (hthreads : ∀ (k : ℕ) (th : Traversal), t.traversals[k]? = some th →
      Prepared destRoot w (g.visits k) th) : Arrived source destRoot dest tree size t g w :=
  { h.arrived with
    transfers := h.arrived.transfers.frame h.invariant hhands hbuffer hfds (fun _ _ => rfl)
      (fun _ _ => rfl) rfl
    threads := hthreads }

theorem Backup.step {a : Action} (h : Backup source sourceDir destRoot dest tree size s g w)
    (hstored : Stored source sourceDir destRoot tree)
    (hnext : (copier size threads).next s a = some t)
    (hworld : World.next source (s, g) a w = some w') :
    Arrived source destRoot dest tree size t (Names.record s a g) w' := by
  have hstep : Step size threads s t := copier_step hnext
  have hfds := hstep.fds_nodup h.arrived.transfers.fds
  have hacts := copier_acts hnext
  clear hnext
  cases hacts with
  | @main r mpc' u hmove =>
    have hsame : w' = w := by
      cases r <;> first | contradiction | exact (Option.some.inj hworld).symm
    subst hsame
    have hhands : s.SameHands (u.mainAt mpc') := .main hmove
    generalize hm : s.main = mpc at hmove
    cases hmove with
    | createRoot =>
      refine h.quiet hhands ⟨rfl, rfl⟩ hfds fun k th hk => ?_
      rw [List.mem_singleton.mp (List.mem_of_getElem? hk)]
      exact .idle rfl nofun nofun
    | _ => exact h.quiet hhands ⟨rfl, rfl⟩ hfds h.arrived.threads
  | @traverse i th r _ hth hmove =>
    simp only [World.next, hth, Option.bind_some] at hworld
    simp only [Names.record, hth]
    exact h.traverse hstored hth hmove
      (traverse_tree hth hmove hworld rfl (h.fine hth)) hfds
  | @work i pc r _ hpc hmove =>
    simp only [World.next, hpc, Option.bind_some] at hworld
    exact h.work hstored hpc hmove hworld hfds
  | spuriousTraversal hu =>
    cases hworld
    refine h.quiet (.of_workers hu.others.1) ?_ hfds (Prepared.wakes h.arrived.threads hu)
    cases hu <;> exact ⟨rfl, rfl⟩
  | spuriousWorker hu =>
    cases hworld
    refine h.quiet hu.sameHands ?_ hfds ?_
    · cases hu <;> exact ⟨rfl, rfl⟩
    · rw [hu.others.1]
      exact h.arrived.threads

end Others

/-! ### Whole runs -/

/-- `main` is behind the creation of the workers. -/
def MainPc.staffed : MainPc → Bool
  | .createRoot | .createWorkers | .returned => false
  | _ => true

def Staffed (threads : ℕ) (s : State) : Prop := s.main.staffed = true → threads ≤ s.workers.length

theorem State.WakesWorker.length {s u : State} (h : s.WakesWorker u) :
    u.workers.length = s.workers.length := by
  cases h with
  | nobody => rfl
  | one => exact List.length_set

theorem Staffed.step {size threads : ℕ} {s t : State} (h : Staffed threads s)
    (hstep : Step size threads s t) : Staffed threads t := by
  have same (hmain : t.main = s.main) (hworkers : t.workers.length = s.workers.length) :
      Staffed threads t := by
    intro hm
    rw [hworkers]
    exact h (hmain ▸ hm)
  cases hstep with
  | main hmove =>
    generalize hm : s.main = mpc at hmove
    rw [Staffed, hm] at h
    cases hmove with
    | created hge => exact fun _ => hge
    | broadcast =>
      intro _
      show threads ≤ (s.workers.map WorkerPc.wake).length
      rw [List.length_map]
      exact h rfl
    | createRoot | giveUp | createWorker | report => nofun
    | _ => exact fun _ => h rfl
  | traverse _ _ _ hmove =>
    obtain ⟨hmain, ⟨v, hv, -, hws⟩, -⟩ := hmove.wakes
    exact same hmain ((congrArg List.length hws).trans hv.length)
  | work _ hmove =>
    obtain ⟨hmain, hws, -⟩ := hmove.wakes
    refine same hmain ?_
    show (List.set _ _ _).length = _
    rw [List.length_set, hws]
  | spuriousTraversal hu =>
    refine same ?_ (congrArg List.length hu.others.1)
    cases hu <;> rfl
  | spuriousWorker hu =>
    refine same ?_ hu.length
    cases hu <;> rfl

section Runs
variable {size threads : ℕ} {sourceDir destDir root destPath : Bytes} {first second : MkdirResult}
  {source : Source} {dest : Bytes → Option DestNode} {tree : Forest Bytes Leaf} {s : State}
  {g : Names} {w : World}

theorem backup_inductive (hsize : 0 < size) (hstored : Stored source sourceDir root tree) :
    (backup size threads sourceDir (root.take 1023) source dest).Inductive (fun _ _ => True)
      fun x => Backup source sourceDir root dest tree size x.1.1 x.1.2 x.2 ∧
        Joined threads x.1.1 ∧ Staffed threads x.1.1 where
  base x hx := by
    obtain ⟨⟨s, g⟩, w⟩ := x
    obtain ⟨⟨⟨hs, -⟩, hg⟩, hw⟩ := id hx
    have hs : s.Start := hs
    have hg : g = .empty := hg
    have hw : w.Start dest := hw
    have hi : Invariant size s := (copier_inductive hsize threads).base s hs
    have hnone : s.toCopy size = [] := by
      obtain ⟨pending, hholds, -⟩ := hi.books.tallied
      rw [State.toCopy, hholds.contents_eq, hholds.empty_iff.mp (by rw [hs.inp, hs.out]),
        State.inHand, hs.workers]
      rfl
    refine ⟨⟨hi, (backup_walks hstored).base _ hx, ⟨?_, fun k th hk => ?_, fun r hr => ?_,
      fun r hr => ?_, ?_, fun path _ => congrFun hw.dest path⟩⟩,
      ((counted_inductive size threads).base s hs).2, fun hm => ?_⟩
    · refine ⟨fun task htask => ?_, fun a ha => ?_, fun i pc hpc => ?_, ?_⟩
      · rw [hnone] at htask
        exact absurd htask List.not_mem_nil
      · rw [hs.added] at ha
        exact absurd ha List.not_mem_nil
      · rw [hs.workers] at hpc
        contradiction
      · rw [hs.fds]
        exact List.nodup_nil
    · rw [hs.traversals] at hk
      contradiction
    · rw [hw.done] at hr
      exact absurd hr List.not_mem_nil
    · rw [hw.done] at hr
      exact absurd hr List.not_mem_nil
    · rw [hw.done, hg]
      rfl
    · rw [hs.main] at hm
      contradiction
  keep x a y h _ hn := by
    obtain ⟨hbackup, hjoined, hstaffed⟩ := h
    obtain ⟨hnext, hrecord, hworld⟩ := backup_next hn
    have hstep := copier_step hnext
    have harrived := hbackup.step hstored hnext hworld
    rw [← hrecord] at harrived
    exact ⟨⟨(copier_inductive hsize threads).keep _ a _ hbackup.invariant trivial hnext,
      (backup_walks hstored).keep x a y hbackup.walking trivial hn, harrived⟩,
      hjoined.step hstep, hstaffed.step hstep⟩

theorem Backup.complete (h : Backup source sourceDir root dest tree size s g w)
    (hjoined : Joined threads s) (hstaffed : Staffed threads s) (hthreads : 1 ≤ threads)
    (hm : s.main = .report) (a : Added) (ha : a ∈ s.added) : Complete source w a := by
  have hexited := hjoined.all hm
  have hlength : 0 < s.workers.length := by
    have hle := hstaffed (by rw [hm]; rfl)
    omega
  have hover : Over s := by
    have hfirst := List.getElem?_eq_getElem hlength
    have hpc := hexited _ (List.getElem_mem hlength)
    exact h.invariant.books.workers 0 .exited (hpc ▸ hfirst)
  have hnone : s.toCopy size = [] := by
    obtain ⟨pending, hholds, -⟩ := h.invariant.books.tallied
    rw [State.toCopy, hholds.contents_eq, hholds.empty_iff.mp hover.empty, List.append_nil]
    refine List.flatMap_eq_nil_iff.mpr fun pc hpc => ?_
    rw [hexited pc hpc]
    rfl
  rcases h.arrived.transfers.added a ha with hdone | ⟨hc, -⟩
  · exact hdone
  · rw [hnone] at hc
    exact absurd hc List.not_mem_nil

theorem Mounted.leaf {dir r : List Bytes} {f : Forest Bytes Leaf} {x : Leaf}
    (h : Mounted source sourceDir dir f) (hmem : (r, some x) ∈ f.visits dir) :
    source (sourceDir ++ relativePath r) = some (.leaf x) := by
  induction f generalizing dir with
  | nil => exact absurd hmem List.not_mem_nil
  | leaf name value rest ih =>
    rcases List.mem_cons.mp hmem with heq | hmem
    · cases heq
      exact h.1
    · exact ih h.2 hmem
  | node name sub rest ihSub ihRest =>
    rcases List.mem_cons.mp hmem with heq | hmem
    · cases heq
    · rcases List.mem_append.mp hmem with hmem | hmem
      · exact ihSub h.2.1 hmem
      · exact ihRest h.2.2 hmem

theorem Backup.regular_copied (h : Backup source sourceDir root dest tree size s g w)
    (hjoined : Joined threads s) (hstaffed : Staffed threads s) (hthreads : 1 ≤ threads)
    (hstored : Stored source sourceDir root tree) (hm : s.main = .report) {r : List Bytes}
    {content : Bytes} (he : (r, some (.regular content)) ∈ tree.visits []) :
    w.dest (root ++ relativePath r) = some (.regular content) := by
  have hentry : (r, FileType.regular) ∈ w.done := by
    rw [h.walking.done hm]
    exact List.mem_map_of_mem he
  have htask : r ∈ g.tasks := by
    rw [← h.arrived.regular]
    exact List.mem_map.mpr ⟨(r, .regular), List.mem_filter.mpr ⟨hentry, rfl⟩, rfl⟩
  obtain ⟨a, ha, -, hsource, hdest⟩ := mem_right_of_forall₂ (h.paths hstored) htask
  obtain ⟨content', hcontent, hcopy⟩ := h.complete hjoined hstaffed hthreads hm a ha
  rw [hsource, Source.content, hstored.below.leaf he] at hcontent
  cases hcontent
  rw [← hdest]
  exact hcopy

/-- If no call fails and every `write` takes what it is given, then when `main`
prints the statistics every entry of the source has been copied to its path, and
nothing else has changed. -/
theorem tree_copied (hsize : 0 < size) (hthreads : 1 ≤ threads)
    (hmain : destination sourceDir destDir first second = some (root, destPath))
    (hstored : Stored source sourceDir root tree)
    (hr : (backup size threads sourceDir destPath source dest).Reachable ((s, g), w))
    (hm : s.main = .report) :
    (∀ e ∈ tree.visits [], w.dest (root ++ relativePath e.1) =
      copyOf (dest (root ++ relativePath e.1)) e.2) ∧
    ∀ path, (∀ e ∈ tree.visits [], path ≠ root ++ relativePath e.1) → w.dest path = dest path := by
  rw [destination_cut hmain] at hr
  obtain ⟨h, hjoined, hstaffed⟩ := (backup_inductive hsize hstored).holds hr
  have hdone : w.done = entries (tree.visits []) := h.walking.done hm
  constructor
  · intro e he
    obtain ⟨r, x⟩ := e
    have hentry : (r, kind x) ∈ w.done := by
      rw [hdone]
      exact List.mem_map_of_mem he
    match x with
    | none => exact h.arrived.directories r hentry
    | some .fifo => exact h.arrived.fifos r hentry
    | some (.regular content) => exact h.regular_copied hjoined hstaffed hthreads hstored hm he
    | some .other =>
      refine h.arrived.frame _ fun e' he' hother heq => ?_
      have hmem : (r, FileType.other) ∈ entries (tree.visits []) := hdone ▸ hentry
      have hsame := hstored.entry_eq hmem he' heq
      rw [← hsame] at hother
      exact hother rfl
  · intro path hpath
    refine h.arrived.frame path fun e he _ => ?_
    obtain ⟨x, hmem, -⟩ := mem_entries he
    exact hpath _ hmem

end Runs

/-- A file, and a directory with a FIFO in it. -/
def smallTree : Forest Bytes Leaf :=
  .leaf (utf8 "a") (.regular (utf8 "x")) (.node (utf8 "d") (.leaf (utf8 "p") .fifo .nil) .nil)

def smallSource : Source := fun path =>
  if path = utf8 "src" then some (.directory [utf8 "a", utf8 "d"])
  else if path = utf8 "src/a" then some (.leaf (.regular (utf8 "x")))
  else if path = utf8 "src/d" then some (.directory [utf8 "p"])
  else if path = utf8 "src/d/p" then some (.leaf .fifo)
  else none

def smallDest : Bytes → Option DestNode := fun path =>
  if path = utf8 "dst/a" then some (.regular (utf8 "old")) else none

theorem smallTree_stored : Stored smallSource (utf8 "src") (utf8 "dst") smallTree where
  top := by decide
  below := ⟨by decide, by decide, ⟨by decide, trivial⟩, trivial⟩
  distinct := ⟨by decide, by decide, ⟨by decide, trivial⟩, trivial⟩
  names := by decide
  fits := by
    unfold Fits
    decide

/-- What the calls for `a` return, and those for `d` until its thread exits. -/
def untilJoin : List Reply :=
  [.ok, .entry (utf8 "a"), .mode .regular, .fd 3, .fd 4, .ok, .ok, .ok, .ok, .wake none, .ok, .ok,
    .ok, .ok, .entry (utf8 "d"), .mode .directory, .ok, .ok]

def copiesFifo : List Reply :=
  [.ok, .entry (utf8 "p"), .mode .fifo, .failure, .ok, .ok, .ok, .ok, .failure]

def copiesByte : List Reply :=
  [.ok, .ok, .ok, .ok, .ok, .count 1, .count 1, .ok, .ok, .ok, .count 0, .ok, .ok, .wake none, .ok,
    .ok, .ok, .ok, .ok, .wake none]

def smallBackup : List Action :=
  List.replicate 3 (.main .ok) ++ untilJoin.map (.traverse 0) ++ copiesFifo.map (.traverse 1) ++
    List.replicate 4 (.traverse 0 .ok) ++ [.traverse 0 .failure] ++ List.replicate 5 (.main .ok) ++
    copiesByte.map (.work 0) ++ List.replicate 2 (.main .ok)

def smallStart : (State × Names) × World :=
  (({ State.init with sourceDir := utf8 "src", destPath := utf8 "dst" }, .empty),
    ⟨fun _ => [], fun _ => none, fun _ => [], smallDest, []⟩)

def smallEnd : Option ((State × Names) × World) :=
  (backup 2 1 (utf8 "src") (utf8 "dst") smallSource smallDest).run smallStart smallBackup

theorem smallEnd_reports : ∃ s g w, smallEnd = some ((s, g), w) ∧ s.main = .report ∧
    (backup 2 1 (utf8 "src") (utf8 "dst") smallSource smallDest).Reachable ((s, g), w) := by
  have hsome : smallEnd.isSome = true := by decide +kernel
  obtain ⟨⟨⟨s, g⟩, w⟩, hend⟩ := Option.isSome_iff_exists.mp hsome
  have hreport : smallEnd.map (fun x => x.1.1.main) = some .report := by decide +kernel
  rw [hend] at hreport
  have hstart : (backup 2 1 (utf8 "src") (utf8 "dst") smallSource smallDest).start smallStart :=
    ⟨⟨⟨⟨rfl, rfl, rfl, rfl, rfl, rfl, rfl, rfl, rfl, rfl, rfl, rfl, rfl⟩, rfl, rfl⟩, rfl⟩, rfl, rfl⟩
  exact ⟨s, g, w, hend, Option.some.inj hreport, .run (.start hstart) smallBackup hend⟩

theorem smallTree_copied : ∃ x, smallEnd = some x ∧ x.1.1.main = .report ∧
    x.2.dest (utf8 "dst/a") = some (.regular (utf8 "x")) ∧
    x.2.dest (utf8 "dst/d") = some .directory ∧ x.2.dest (utf8 "dst/d/p") = some .fifo := by
  obtain ⟨s, g, w, hend, hm, hr⟩ := smallEnd_reports
  have hmain : destination (utf8 "src") (utf8 "dst") .made .made =
      some (utf8 "dst", utf8 "dst") := by decide
  obtain ⟨hcopied, -⟩ := tree_copied (by decide) (by decide) hmain smallTree_stored hr hm
  refine ⟨((s, g), w), hend, hm, ?_, ?_, ?_⟩
  · exact hcopied ([utf8 "a"], some (.regular (utf8 "x"))) (by decide)
  · exact hcopied ([utf8 "d"], none) (by decide)
  · exact hcopied ([utf8 "d", utf8 "p"], some .fifo) (by decide)

end AdvancedCProjects.Copier
