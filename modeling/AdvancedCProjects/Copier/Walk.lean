import AdvancedCProjects.Copier.TaskNames
import AdvancedCProjects.Copier.World

/-!
# The traversal of a tree (program.c:171-303)

A thread of the traversal has some entries of its directory before it and some
behind it, and is at one of them in between. The threads that wait are in the
directories above, so what is before the threads, the last one first, is what is
left of a walk through the tree.
-/

namespace AdvancedCProjects.Copier
open Base

/-! ### What a thread does with an entry -/

/-- `between` entries a thread may still be busy with the one behind it. -/
inductive Stage where
  | unopened
  | between
  | seen
  | making
  | regular
  | fifo
  | exited
  | failed
  deriving DecidableEq

def TraversalOutput.stage : TraversalOutput → Stage
  | .failedOpendir | .failed | .failedDest _ => .failed
  | .directory | .regularFile | .fifo => .between

def TraversalPc.stage : TraversalPc → Stage
  | .opendir => .unopened
  | .readdir | .join _ | .signal | .unlock => .between
  | .stat _ => .seen
  | .mkdir | .create => .making
  | .openSrc _ | .openDest _ _ | .insert _ | .lockBuffer _ | .testFull _ | .wait _ | .asleep _
  | .woken _ | .add _ => .regular
  | .access | .unlink | .mkfifo => .fifo
  | .lockOutput o | .inOutput o | .unlockOutput o => o.stage
  | .closeSrc _ => .failed
  | .exited => .exited

def Statistics.count (stats : Statistics) : FileType → ℤ
  | .directory => stats.directories
  | .regular => stats.regularFiles
  | .fifo => stats.fifosCopied
  | .other => 0

def TraversalOutput.counts : TraversalOutput → List FileType
  | .directory => [.directory]
  | .regularFile => [.regular]
  | .fifo => [.fifo]
  | _ => []

/-- The entry that a thread has dealt with and not counted. -/
def TraversalPc.uncounted : TraversalPc → List FileType
  | .join _ => [.directory]
  | .signal | .unlock => [.regular]
  | .lockOutput o | .inOutput o => o.counts
  | _ => []

structure State.SameBuffer (s t : State) : Prop where
  buffer : t.buffer = s.buffer
  added : t.added = s.added

/-- Nothing is counted either. -/
structure State.SameTotals (s t : State) : Prop extends s.SameBuffer t where
  counts : ∀ type, t.stats.count type = s.stats.count type

/-- Thread `i` goes on to `th'` and may create another one, and the world answers. -/
inductive TreeStep (source : Source) (size : ℕ) (s : State) (g : Names) (w : World) (i : ℕ)
    (th : Traversal) : Traversal → List Traversal → Names → World → State → Prop where
  | onward {pc : TraversalPc} {t : State} : pc.stage = th.pc.stage → pc.fds = th.pc.fds →
    pc.uncounted = th.pc.uncounted → pc ≠ .create → s.SameTotals t →
    TreeStep source size s g w i th { th with pc := pc } [] g w t
  | counted {o : TraversalOutput} {t : State} : th.pc = .inOutput o → o.stage = .between →
    t.stats = s.stats.traversal o → s.SameBuffer t →
    TreeStep source size s g w i th { th with pc := .unlockOutput o } [] g w t
  | opened {names : List Bytes} {t : State} : th.pc = .opendir →
    source (s.read th.sourceDir) = some (.directory names) → s.SameTotals t →
    TreeStep source size s g w i th { th with pc := .readdir } [] g
      { w with streams := Function.update w.streams i names } t
  | entry {name : Bytes} {rest : List Bytes} {t : State} : th.pc = .readdir →
    w.streams i = name :: rest → s.SameTotals t →
    TreeStep source size s g w i th
      { th with
        srcPath := snprintf (s.read th.sourceDir) name
        destPath := snprintf (s.read th.destDir) name
        pc := .stat name } []
      (g.visit i { g.visits i with entry := name })
      { w with streams := Function.update w.streams i rest } t
  | ended {t : State} : th.pc = .readdir → w.streams i = [] → s.SameTotals t →
    TreeStep source size s g w i th { th with pc := .exited } [] g w t
  | directory {name : Bytes} {t : State} : th.pc = .stat name →
    (source th.srcPath).map SourceNode.mode = some .directory → s.SameTotals t →
    TreeStep source size s g w i th
      { th with
        destSubdir := snprintf (s.read th.destDir) name
        pc := .mkdir } [] g w t
  | regular {name : Bytes} {t : State} : th.pc = .stat name →
    (source th.srcPath).map SourceNode.mode = some .regular → s.SameTotals t →
    TreeStep source size s g w i th { th with pc := .openSrc name } [] g w t
  | fifo {name : Bytes} {t : State} : th.pc = .stat name →
    (source th.srcPath).map SourceNode.mode = some .fifo → s.SameTotals t →
    TreeStep source size s g w i th { th with pc := .access } [] g w t
  | other {name : Bytes} {t : State} : th.pc = .stat name →
    (source th.srcPath).map SourceNode.mode = some .other → s.SameTotals t →
    TreeStep source size s g w i th { th with pc := .readdir } [] g
      (w.finish (g.visits i).path .other) t
  | mkdir {t : State} : th.pc = .mkdir →
    w.dest th.destSubdir = none ∨ w.dest th.destSubdir = some .directory → s.SameTotals t →
    TreeStep source size s g w i th { th with pc := .create } [] g
      (w.put th.destSubdir (some .directory)) t
  | create {t : State} : th.pc = .create → s.SameTotals t →
    TreeStep source size s g w i th { th with pc := .join s.traversals.length }
      [.start (.srcPath i) (.destSubdir i)]
      (g.visit s.traversals.length ⟨(g.visits i).path, []⟩)
      (w.finish (g.visits i).path .directory) t
  | openSrc {name : Bytes} {fd : ℕ} {t : State} : th.pc = .openSrc name → fd ∉ s.fds →
    s.SameTotals t →
    TreeStep source size s g w i th { th with pc := .openDest name fd } [] g
      (w.openAs fd (some (.source th.srcPath 0))) t
  | openDest {name : Bytes} {srcFd fd : ℕ} {t : State} : th.pc = .openDest name srcFd →
    fd ∉ s.fds → s.SameTotals t →
    TreeStep source size s g w i th { th with pc := .insert ⟨name, srcFd, fd⟩ } [] g
      ((w.put th.destPath (some (.regular []))).openAs fd (some (.dest th.destPath 0))) t
  | add {file : OpenFile} {t : State} : th.pc = .add file →
    (∀ type, t.stats.count type = s.stats.count type) →
    t.buffer = s.buffer.put size ⟨file.srcFd, file.destFd, .destPath i⟩ →
    t.added = s.added ++
      [⟨⟨file.srcFd, file.destFd, .destPath i⟩, file.name, th.srcPath, th.destPath⟩] →
    TreeStep source size s g w i th { th with pc := .signal } []
      { g with tasks := g.tasks ++ [(g.visits i).path] }
      (w.finish (g.visits i).path .regular) t
  | unlink {t : State} : th.pc = .unlink → s.SameTotals t →
    TreeStep source size s g w i th { th with pc := .mkfifo } [] g (w.put th.destPath none) t
  | mkfifo {t : State} : th.pc = .mkfifo → s.SameTotals t →
    TreeStep source size s g w i th { th with pc := .lockOutput .fifo } [] g
      ((w.put th.destPath (some .fifo)).finish (g.visits i).path .fifo) t

/-- The state after a step of thread `i`, with the names and the world. -/
def TreeMoved (source : Source) (size : ℕ) (s : State) (g : Names) (w : World) (i : ℕ)
    (th : Traversal) (t : State) (g' : Names) (w' : World) : Prop :=
  ∃ th' created, t.traversals = s.traversals.set i th' ++ created ∧
    TreeStep source size s g w i th th' created g' w' t

section Steps
variable {source : Source} {size i : ℕ} {s t : State} {g g' : Names} {w w' : World}
  {th th' : Traversal} {pc pc' : TraversalPc} {r : Reply}

theorem TreeMoved.one (ht : t.traversals = s.traversals.set i th')
    (h : TreeStep source size s g w i th th' [] g' w' t) :
    TreeMoved source size s g w i th t g' w' :=
  ⟨th', [], by rw [ht, List.append_nil], h⟩

theorem TreeMoved.goto (h : some (s.goto i th pc') = some t) (hw : some w = some w')
    (hpc : th.pc = pc) (hstage : pc'.stage = pc.stage) (hfds : pc'.fds = pc.fds)
    (huncounted : pc'.uncounted = pc.uncounted) (hcreate : pc' ≠ .create) :
    TreeMoved source size s g w i th t g w' := by
  cases h
  cases hw
  subst hpc
  exact .one rfl (.onward hstage hfds huncounted hcreate ⟨⟨rfl, rfl⟩, fun _ => rfl⟩)

theorem TreeMoved.local (ht : t.traversals = (s.goto i th pc').traversals)
    (hsame : s.SameTotals t) (hw : some w = some w') (hpc : th.pc = pc)
    (hstage : pc'.stage = pc.stage) (hfds : pc'.fds = pc.fds)
    (huncounted : pc'.uncounted = pc.uncounted) (hcreate : pc' ≠ .create) :
    TreeMoved source size s g w i th t g w' := by
  cases hw
  subst hpc
  exact .one ht (.onward hstage hfds huncounted hcreate hsame)

theorem World.traverse_signal {path : List Bytes}
    (h : w.traverse source s path i th .signal r = some w') : w' = w := by
  cases r <;> simp only [World.traverse, reduceCtorEq, Option.some.injEq] at h <;> exact h.symm

theorem World.put_same {path : Bytes} {node : Option DestNode} (h : w.dest path = node) :
    w.put path node = w := by
  rw [World.put, ← h, Function.update_eq_self]

theorem traverse_tree (hth : s.traversals[i]? = some th) (h : s.traverse size i th pc r = some t)
    (hw : w.traverse source s (g.visits i).path i th pc r = some w') (hpc : th.pc = pc)
    (hfine : pc.stage ≠ .failed) :
    TreeMoved source size s g w i th t (g.traverse s.traversals.length i pc r) w' := by
  have hset : s.traversals = s.traversals.set i { th with pc := th.pc } := by
    obtain ⟨hi, heq⟩ := List.getElem?_eq_some_iff.mp hth
    rw [← heq, List.set_getElem_self]
  unfold State.traverse at h
  split at h <;> try contradiction
  -- opendir and readdir
  · simp only [World.traverse] at hw
    split at hw
    · next names hnames =>
      cases h
      cases hw
      exact .one rfl (.opened hpc hnames ⟨⟨rfl, rfl⟩, fun _ => rfl⟩)
    · contradiction
  · simp only [World.traverse] at hw
    split at hw
    · next hempty =>
      cases h
      cases hw
      exact .one rfl (.ended hpc hempty ⟨⟨rfl, rfl⟩, fun _ => rfl⟩)
    · contradiction
  · next name =>
    simp only [World.traverse] at hw
    simp only [Names.traverse]
    split at h
    · next hdots =>
      rw [if_pos hdots] at hw ⊢
      cases h
      cases hw
      refine .one hset (.onward rfl rfl rfl ?_ ⟨⟨rfl, rfl⟩, fun _ => rfl⟩)
      simp [hpc]
    · next hdots =>
      rw [if_neg hdots] at hw ⊢
      cases h
      split at hw
      · next next rest hstream =>
        split at hw
        · next hname =>
          obtain ⟨rfl, -⟩ := hname
          cases hw
          exact .one rfl (.entry hpc hstream ⟨⟨rfl, rfl⟩, fun _ => rfl⟩)
        · contradiction
      · contradiction
  -- stat
  · simp only [World.traverse] at hw
    split at hw
    · next hmode =>
      cases h
      cases hw
      exact .one rfl (.directory hpc hmode ⟨⟨rfl, rfl⟩, fun _ => rfl⟩)
    · contradiction
  · simp only [World.traverse] at hw
    split at hw
    · next hmode =>
      cases h
      cases hw
      exact .one rfl (.regular hpc hmode ⟨⟨rfl, rfl⟩, fun _ => rfl⟩)
    · contradiction
  · simp only [World.traverse] at hw
    split at hw
    · next hmode =>
      cases h
      cases hw
      exact .one rfl (.fifo hpc hmode ⟨⟨rfl, rfl⟩, fun _ => rfl⟩)
    · contradiction
  · simp only [World.traverse] at hw
    split at hw
    · next hmode =>
      cases h
      cases hw
      exact .one rfl (.other hpc hmode ⟨⟨rfl, rfl⟩, fun _ => rfl⟩)
    · contradiction
  -- a directory
  · simp only [World.traverse] at hw
    have hmade : (w.dest th.destSubdir = none ∨ w.dest th.destSubdir = some .directory) ∧
        w' = w.put th.destSubdir (some .directory) := by
      split at hw
      · next hnone =>
        cases hw
        exact ⟨.inl hnone, rfl⟩
      · next hthere =>
        cases hw
        exact ⟨.inr hthere, (World.put_same hthere).symm⟩
      · contradiction
    obtain ⟨hdest, rfl⟩ := hmade
    cases h
    exact .one rfl (.mkdir hpc hdest ⟨⟨rfl, rfl⟩, fun _ => rfl⟩)
  · cases h
    cases hw
    exact ⟨_, _, rfl, .create hpc ⟨⟨rfl, rfl⟩, fun _ => rfl⟩⟩
  · split at h
    · exact .goto h hw hpc rfl rfl rfl (by simp)
    · contradiction
  -- a regular file
  · simp only [World.traverse] at hw
    obtain ⟨hfd, rfl⟩ := State.openFd_eq h
    split at hw
    · contradiction
    · cases hw
      exact .one rfl (.openSrc hpc hfd ⟨⟨rfl, rfl⟩, fun _ => rfl⟩)
  · simp only [World.traverse] at hw
    obtain ⟨hfd, rfl⟩ := State.openFd_eq h
    split at hw
    · cases hw
      exact .one rfl (.openDest hpc hfd ⟨⟨rfl, rfl⟩, fun _ => rfl⟩)
    · cases hw
      exact .one rfl (.openDest hpc hfd ⟨⟨rfl, rfl⟩, fun _ => rfl⟩)
    · contradiction
  · cases h
    exact .local rfl ⟨⟨rfl, rfl⟩, fun _ => rfl⟩ hw hpc rfl rfl rfl (by simp)
  -- add_task_to_buffer
  · obtain ⟨-, rfl⟩ := State.lockBuffer_eq h
    exact .local rfl ⟨⟨rfl, rfl⟩, fun _ => rfl⟩ hw hpc rfl rfl rfl (by simp)
  · obtain ⟨-, rfl⟩ := State.lockBuffer_eq h
    exact .local rfl ⟨⟨rfl, rfl⟩, fun _ => rfl⟩ hw hpc rfl rfl rfl (by simp)
  · split at h
    · exact .goto h hw hpc rfl rfl rfl (by simp)
    · exact .goto h hw hpc rfl rfl rfl (by simp)
  · cases h
    exact .local rfl ⟨⟨rfl, rfl⟩, fun _ => rfl⟩ hw hpc rfl rfl rfl (by simp)
  · cases h
    cases hw
    exact .one rfl (.add hpc (fun _ => rfl) rfl rfl)
  · obtain rfl := World.traverse_signal hw
    obtain ⟨hts, hstats, hbuffer, hadded⟩ := (State.signalNotEmpty_wakes h).others
    have hcounts (type : FileType) : t.stats.count type = s.stats.count type := by rw [hstats]; rfl
    exact .local hts ⟨⟨hbuffer, hadded⟩, hcounts⟩ rfl hpc rfl rfl rfl (by simp)
  · cases h
    exact .local rfl ⟨⟨rfl, rfl⟩, fun _ => rfl⟩ hw hpc rfl rfl rfl (by simp)
  -- a FIFO
  · simp only [World.traverse] at hw
    split at hw
    · contradiction
    · exact .goto h hw hpc rfl rfl rfl (by simp)
  · simp only [World.traverse] at hw
    split at hw
    · exact .goto h hw hpc rfl rfl rfl (by simp)
    · contradiction
  · simp only [World.traverse] at hw
    cases h
    split at hw
    · cases hw
      exact .one rfl (.unlink hpc ⟨⟨rfl, rfl⟩, fun _ => rfl⟩)
    · cases hw
      exact .one rfl (.unlink hpc ⟨⟨rfl, rfl⟩, fun _ => rfl⟩)
    · contradiction
  · simp only [World.traverse] at hw
    cases h
    split at hw
    · cases hw
      exact .one rfl (.mkfifo hpc ⟨⟨rfl, rfl⟩, fun _ => rfl⟩)
    · contradiction
  -- under output_mutex
  · next o =>
    obtain rfl := State.lockOutput_eq h
    exact .local rfl ⟨⟨rfl, rfl⟩, fun _ => rfl⟩ hw hpc rfl (by cases o <;> rfl) rfl (by simp)
  · next o =>
    cases h
    cases hw
    cases o with
    | directory | regularFile | fifo => exact .one rfl (.counted hpc rfl rfl ⟨rfl, rfl⟩)
    | _ => exact absurd rfl hfine
  · next o =>
    cases h
    cases o with
    | directory | regularFile | fifo =>
      exact .local rfl ⟨⟨rfl, rfl⟩, fun _ => rfl⟩ hw hpc rfl rfl rfl
        (by simp [TraversalOutput.after])
    | _ => exact absurd rfl hfine

end Steps

/-! ### The walk -/

/-- The entries below a directory are where the source has them. -/
def Mounted (source : Source) (sourceDir : Bytes) (dir : List Bytes) : Forest Bytes Leaf → Prop
  | .nil => True
  | .leaf name x rest => source (sourceDir ++ relativePath (dir ++ [name])) = some (.leaf x) ∧
    Mounted source sourceDir dir rest
  | .node name sub rest =>
    source (sourceDir ++ relativePath (dir ++ [name])) = some (.directory sub.names) ∧
    Mounted source sourceDir (dir ++ [name]) sub ∧ Mounted source sourceDir dir rest

/-- The source directory holds the tree, and the paths of both trees fit the buffers. -/
structure Stored (source : Source) (sourceDir destRoot : Bytes) (tree : Forest Bytes Leaf) :
    Prop where
  top : source sourceDir = some (.directory tree.names)
  below : Mounted source sourceDir [] tree
  distinct : tree.Distinct
  names : ∀ e ∈ tree.visits [], ∀ name ∈ e.1, 47 ∉ name
  fits : ∀ e ∈ tree.visits [], Fits sourceDir destRoot e.1

def kind : Option Leaf → FileType
  | none => .directory
  | some x => x.mode

def entries (visits : List (List Bytes × Option Leaf)) : List (List Bytes × FileType) :=
  visits.map fun e => (e.1, kind e.2)

/-- `f` is what a thread has not dealt with, from the entry on that it is at. -/
def At (source : Source) (sourceDir : Bytes) (v : Visit) (stream : List Bytes)
    (f : Forest Bytes Leaf) : Stage → Prop
  | .unopened => source (sourceDir ++ relativePath v.dir) = some (.directory f.names)
  | .between => stream = f.names
  | .seen => f.names = v.entry :: stream
  | .making => ∃ sub rest, f = .node v.entry sub rest ∧ stream = rest.names
  | .regular => ∃ content rest, f = .leaf v.entry (.regular content) rest ∧ stream = rest.names
  | .fifo => ∃ rest, f = .leaf v.entry .fifo rest ∧ stream = rest.names
  | .exited => f = .nil
  | .failed => False

structure Walker (source : Source) (sourceDir : Bytes) (s : State) (v : Visit)
    (stream : List Bytes) (th : Traversal) (f : Forest Bytes Leaf) : Prop where
  mounted : Mounted source sourceDir v.dir f
  place : At source sourceDir v stream f th.pc.stage
  reads : th.pc ≠ .exited → s.read th.sourceDir = sourceDir ++ relativePath v.dir

structure Walk (source : Source) (sourceDir : Bytes) (tree : Forest Bytes Leaf) (s : State)
    (g : Names) (w : World) (rests : ℕ → Forest Bytes Leaf) : Prop where
  walkers : ∀ (k : ℕ) (th : Traversal), s.traversals[k]? = some th →
    Walker source sourceDir s (g.visits k) (w.streams k) th (rests k)
  all : s.traversals ≠ [] → w.done ++
    entries (Forest.pending (fun k => (g.visits k).dir) rests s.traversals.length) =
      entries (tree.visits [])
  fresh : s.traversals = [] → w.done = []

section Walk
variable {source : Source} {sourceDir destRoot : Bytes} {tree f f' sub rest : Forest Bytes Leaf}
  {size threads i k : ℕ} {s t u : State} {g g' : Names} {w w' : World} {th th' : Traversal}
  {created : List Traversal} {rests : ℕ → Forest Bytes Leaf} {v : Visit} {stream : List Bytes}

theorem entries_append (es es' : List (List Bytes × Option Leaf)) :
    entries (es ++ es') = entries es ++ entries es' := List.map_append

theorem Leaf.mode_ne_directory (x : Leaf) : x.mode ≠ .directory := by
  cases x <;> nofun

theorem Fits.srcPath {names : List Bytes} (h : Fits sourceDir destRoot names) :
    cutPath sourceDir names = sourceDir ++ relativePath names := cutPath_eq_iff.mpr h.1

theorem Fits.destPath {names : List Bytes} (h : Fits sourceDir destRoot names) :
    cutPath destRoot names = destRoot ++ relativePath names := cutPath_eq_iff.mpr h.2

/-- The entry that is first in `f` is first to be dealt with. -/
theorem visits_of_names {name : Bytes} {names dir : List Bytes} (h : f.names = name :: names) :
    ∃ x, (dir ++ [name], x) ∈ f.visits dir := by
  rcases Forest.names_eq_cons h with ⟨value, rest, rfl, -⟩ | ⟨sub, rest, rfl, -⟩
  · exact ⟨some value, List.mem_cons_self⟩
  · exact ⟨none, List.mem_cons_self⟩

/-- What `stat` finds says what comes first in `f`. -/
theorem Walker.seen {name : Bytes} (h : Walker source sourceDir s v stream th f)
    (hhold : Holding sourceDir destRoot th v) (hpc : th.pc = .stat name)
    (hfits : ∀ e ∈ f.visits v.dir, Fits sourceDir destRoot e.1) :
    (∃ sub rest, f = .node v.entry sub rest ∧ stream = rest.names ∧
      (source th.srcPath).map SourceNode.mode = some .directory) ∨
    ∃ x rest, f = .leaf v.entry x rest ∧ stream = rest.names ∧
      (source th.srcPath).map SourceNode.mode = some x.mode := by
  have hplace := h.place
  rw [hpc] at hplace
  have hplace : f.names = v.entry :: stream := hplace
  obtain ⟨x, hx⟩ : ∃ x, (v.dir ++ [v.entry], x) ∈ f.visits v.dir := visits_of_names hplace
  have hsrc : th.srcPath = sourceDir ++ relativePath (v.dir ++ [v.entry]) :=
    (hhold.srcPath (by rw [hpc]; rfl)).trans (hfits _ hx).srcPath
  have hmounted := h.mounted
  rw [hsrc]
  rcases Forest.names_eq_cons hplace with ⟨value, rest, rfl, hrest⟩ | ⟨sub, rest, rfl, hrest⟩
  · rw [hmounted.1]
    exact .inr ⟨value, rest, rfl, hrest.symm, rfl⟩
  · rw [hmounted.1]
    exact .inl ⟨sub, rest, rfl, hrest.symm, rfl⟩

/-- A thread that creates no other deals with the entries in their order. -/
theorem TreeStep.walks (h : TreeStep source size s g w i th th' [] g' w' t)
    (hw : Walker source sourceDir s (g.visits i) (w.streams i) th f)
    (hhold : Holding sourceDir destRoot th (g.visits i))
    (hfits : ∀ e ∈ f.visits (g.visits i).dir, Fits sourceDir destRoot e.1) :
    ∃ f', Mounted source sourceDir (g.visits i).dir f' ∧
      At source sourceDir (g'.visits i) (w'.streams i) f' th'.pc.stage ∧
      w'.done ++ entries (f'.visits (g.visits i).dir) =
        w.done ++ entries (f.visits (g.visits i).dir) := by
  have hplace := hw.place
  have hmounted := hw.mounted
  generalize hcreated : ([] : List Traversal) = created at h
  cases h with
  | onward hstage =>
    rw [← hstage] at hplace
    exact ⟨f, hmounted, hplace, rfl⟩
  | counted hpc hbetween =>
    rw [hpc] at hplace
    exact ⟨f, hmounted, hplace, rfl⟩
  | opened hpc hnames _ =>
    have hreads := hw.reads (by rw [hpc]; nofun)
    rw [hpc] at hplace
    rw [hreads] at hnames
    have hsame := hplace.symm.trans hnames
    cases hsame
    exact ⟨f, hmounted, Function.update_self .., rfl⟩
  | @entry name rest _ hpc hstream _ =>
    rw [hpc, hstream] at hplace
    refine ⟨f, hmounted, ?_, rfl⟩
    have hseen : f.names = (((g.visit i { g.visits i with entry := name }).visits i).entry) ::
        Function.update w.streams i rest i := by
      rw [Names.visit_self, Function.update_self]
      exact hplace.symm
    exact hseen
  | ended hpc hempty _ =>
    rw [hpc, hempty] at hplace
    exact ⟨f, hmounted, Forest.names_eq_nil hplace.symm, rfl⟩
  | directory hpc hmode _ =>
    rcases hw.seen hhold hpc hfits with ⟨sub, rest, hf, hrest, -⟩ | ⟨x, rest, -, -, hx⟩
    · exact ⟨f, hmounted, ⟨sub, rest, hf, hrest⟩, rfl⟩
    · exact absurd (Option.some.inj (hx.symm.trans hmode)) x.mode_ne_directory
  | regular hpc hmode _ =>
    rcases hw.seen hhold hpc hfits with ⟨sub, rest, -, -, hx⟩ | ⟨x, rest, hf, hrest, hx⟩
    · cases hx.symm.trans hmode
    · cases x with
      | regular content => exact ⟨f, hmounted, ⟨content, rest, hf, hrest⟩, rfl⟩
      | _ => cases hx.symm.trans hmode
  | fifo hpc hmode _ =>
    rcases hw.seen hhold hpc hfits with ⟨sub, rest, -, -, hx⟩ | ⟨x, rest, hf, hrest, hx⟩
    · cases hx.symm.trans hmode
    · cases x with
      | fifo => exact ⟨f, hmounted, ⟨rest, hf, hrest⟩, rfl⟩
      | _ => cases hx.symm.trans hmode
  | other hpc hmode _ =>
    rcases hw.seen hhold hpc hfits with ⟨sub, rest, -, -, hx⟩ | ⟨x, rest, hf, hrest, hx⟩
    · cases hx.symm.trans hmode
    · cases x with
      | other =>
        subst hf
        exact ⟨rest, hmounted.2, hrest, List.append_assoc ..⟩
      | _ => cases hx.symm.trans hmode
  | mkdir hpc _ _ =>
    rw [hpc] at hplace
    exact ⟨f, hmounted, hplace, rfl⟩
  | create => contradiction
  | openSrc hpc _ _ =>
    rw [hpc] at hplace
    exact ⟨f, hmounted, hplace, rfl⟩
  | openDest hpc _ _ =>
    rw [hpc] at hplace
    exact ⟨f, hmounted, hplace, rfl⟩
  | add hpc _ _ _ =>
    rw [hpc] at hplace
    obtain ⟨content, rest, rfl, hrest⟩ := hplace
    exact ⟨rest, hmounted.2, hrest, List.append_assoc ..⟩
  | unlink hpc _ =>
    rw [hpc] at hplace
    exact ⟨f, hmounted, hplace, rfl⟩
  | mkfifo hpc _ =>
    rw [hpc] at hplace
    obtain ⟨rest, rfl, hrest⟩ := hplace
    exact ⟨rest, hmounted.2, hrest, List.append_assoc ..⟩

theorem TreeStep.acts (h : TreeStep source size s g w i th th' created g' w' t) :
    th.pc.acts = true ∨
    created = [] ∧ g' = g ∧ w' = w ∧ th'.pc.stage = th.pc.stage := by
  cases h with
  | onward hstage => exact .inr ⟨rfl, rfl, rfl, hstage⟩
  | counted hpc | opened hpc | entry hpc | ended hpc | directory hpc | regular hpc | fifo hpc
  | other hpc | mkdir hpc | create hpc | openSrc hpc | openDest hpc | add hpc | unlink hpc
  | mkfifo hpc =>
    exact .inl (by rw [hpc]; rfl)

theorem TreeStep.created_nil_or (h : TreeStep source size s g w i th th' created g' w' t) :
    created = [] ∨ th.pc = .create ∧ th' = { th with pc := .join s.traversals.length } ∧
      created = [.start (.srcPath i) (.destSubdir i)] ∧
      g' = g.visit s.traversals.length ⟨(g.visits i).path, []⟩ ∧
      w' = w.finish (g.visits i).path .directory := by
  cases h with
  | create hpc => exact .inr ⟨hpc, rfl, rfl, rfl, rfl⟩
  | _ => exact .inl rfl

theorem TreeStep.dir (h : TreeStep source size s g w i th th' created g' w' t)
    (hi : i < s.traversals.length) : (g'.visits i).dir = (g.visits i).dir := by
  cases h with
  | entry => rw [Names.visit_self]
  | create => rw [Names.visit_of_ne (Nat.ne_of_lt hi)]
  | _ => rfl

theorem TreeStep.others (h : TreeStep source size s g w i th th' created g' w' t)
    (hk : k < s.traversals.length) (hki : k ≠ i) :
    g'.visits k = g.visits k ∧ w'.streams k = w.streams k := by
  cases h with
  | opened => exact ⟨rfl, Function.update_of_ne hki ..⟩
  | entry => exact ⟨Names.visit_of_ne hki, Function.update_of_ne hki ..⟩
  | create => exact ⟨Names.visit_of_ne (Nat.ne_of_lt hk), rfl⟩
  | _ => exact ⟨rfl, rfl⟩

theorem Walker.frame (h : Walker source sourceDir s v stream th f) (hn : Nested s)
    (hstep : Step size threads s t) (hk : s.traversals[k]? = some th) :
    Walker source sourceDir t v stream th f :=
  ⟨h.mounted, h.place, fun hlive => (hn.read_step hstep hk hlive).1.trans (h.reads hlive)⟩

/-- The threads behind one that does not wait have exited. -/
theorem Nested.later_exited (hn : Nested s) (hth : s.traversals[i]? = some th)
    (hacts : th.pc.acts = true) (hik : i < k) (hk : s.traversals[k]? = some th') :
    th'.pc = .exited := by
  obtain ⟨hjoin, hlive⟩ := acts_iff.mp hacts
  by_contra hlive'
  obtain ⟨m, -, -, hm⟩ := hn.serial.chain.waits hik hth hk hlive hlive'
  exact hjoin m hm

theorem Walk.finished (h : Walk source sourceDir tree s g w rests)
    (hk : s.traversals[k]? = some th) (hexit : th.pc = .exited) : rests k = .nil := by
  have hplace := (h.walkers k th hk).place
  rwa [hexit] at hplace

/-- What a thread that does not wait has before it comes next. -/
theorem Walk.next (h : Walk source sourceDir tree s g w rests) (hn : Nested s)
    (hth : s.traversals[i]? = some th) (hacts : th.pc.acts = true) :
    w.done ++ entries ((rests i).visits (g.visits i).dir) ++
      entries (Forest.pending (fun k => (g.visits k).dir) rests i) = entries (tree.visits []) := by
  have hi := (List.getElem?_eq_some_iff.mp hth).1
  have hne : s.traversals ≠ [] := List.ne_nil_of_length_pos (by omega)
  have hlater (k : ℕ) (hik : i < k) (hk : k < s.traversals.length) : rests k = .nil :=
    have hget := List.getElem?_eq_getElem hk
    h.finished hget (hn.later_exited hth hacts hik hget)
  rw [← h.all hne, Forest.pending_at hi hlater, entries_append, List.append_assoc]

theorem Walk.visits_mem (h : Walk source sourceDir tree s g w rests) (hn : Nested s)
    (hth : s.traversals[i]? = some th) (hacts : th.pc.acts = true)
    {e : List Bytes × Option Leaf} (he : e ∈ (rests i).visits (g.visits i).dir) :
    ∃ x, (e.1, x) ∈ tree.visits [] := by
  have hmem : (e.1, kind e.2) ∈ entries (tree.visits []) := by
    rw [← h.next hn hth hacts]
    exact List.mem_append_left _ (List.mem_append_right _ (List.mem_map_of_mem he))
  obtain ⟨⟨path, x⟩, he', heq⟩ := List.mem_map.mp hmem
  have hpath : path = e.1 := congrArg Prod.fst heq
  exact ⟨x, hpath ▸ he'⟩

theorem Walk.fits (h : Walk source sourceDir tree s g w rests) (hn : Nested s)
    (hstored : Stored source sourceDir destRoot tree) (hth : s.traversals[i]? = some th)
    (hacts : th.pc.acts = true) (e : List Bytes × Option Leaf)
    (he : e ∈ (rests i).visits (g.visits i).dir) : Fits sourceDir destRoot e.1 := by
  obtain ⟨x, hx⟩ := h.visits_mem hn hth hacts he
  exact hstored.fits (e.1, x) hx

theorem Walker.mover (h : Walker source sourceDir s (g.visits i) (w.streams i) th f)
    (hn : Nested s) (hstep : Step size threads s t) (hth : s.traversals[i]? = some th)
    (hth' : t.traversals[i]? = some th') (hdir : (g'.visits i).dir = (g.visits i).dir)
    (hmounted : Mounted source sourceDir (g.visits i).dir f')
    (hplace : At source sourceDir (g'.visits i) (w'.streams i) f' th'.pc.stage) :
    Walker source sourceDir t (g'.visits i) (w'.streams i) th' f' := by
  refine ⟨hdir ▸ hmounted, hplace, fun hlive' => ?_⟩
  obtain ⟨x, hx, hsrc, -, hexit⟩ := (hstep.traversals hn.locked).keeps hth
  rw [hth'] at hx
  cases hx
  have hlive : th.pc ≠ .exited := fun he => hlive' (hexit he)
  rw [hsrc, (hn.read_step hstep hth hlive).1, h.reads hlive, hdir]

/-- A thread goes on by itself. -/
theorem Walk.go (h : Walk source sourceDir tree s g w rests) (hn : Nested s)
    (hstep : Step size threads s t) (hth : s.traversals[i]? = some th)
    (ht : t.traversals = s.traversals.set i th')
    (hmove : TreeStep source size s g w i th th' [] g' w' t)
    (hmounted : Mounted source sourceDir (g.visits i).dir f')
    (hplace : At source sourceDir (g'.visits i) (w'.streams i) f' th'.pc.stage)
    (hall : w'.done ++ entries (Forest.pending (fun k => (g.visits k).dir)
        (Function.update rests i f') s.traversals.length) = entries (tree.visits [])) :
    Walk source sourceDir tree t g' w' (Function.update rests i f') := by
  have hi := (List.getElem?_eq_some_iff.mp hth).1
  have hlength : t.traversals.length = s.traversals.length := by rw [ht, List.length_set]
  have hdir := hmove.dir hi
  have hself : t.traversals[i]? = some th' := by rw [ht, List.getElem?_set_self hi]
  refine ⟨fun k x hk => ?_, fun _ => ?_, fun hnil => ?_⟩
  · by_cases hki : k = i
    · subst hki
      rw [hself] at hk
      cases hk
      rw [Function.update_self]
      exact (h.walkers k th hth).mover hn hstep hth hself hdir hmounted hplace
    · have hold : s.traversals[k]? = some x := by
        rwa [ht, List.getElem?_set_ne (Ne.symm hki)] at hk
      obtain ⟨hvisit, hstream⟩ := hmove.others (List.getElem?_eq_some_iff.mp hold).1 hki
      rw [Function.update_of_ne hki, hvisit, hstream]
      exact (h.walkers k x hold).frame hn hstep hold
  · rw [hlength, ← hall]
    congr 2
    refine Forest.pending_congr fun k hk => ⟨?_, rfl⟩
    by_cases hki : k = i
    · rw [hki, hdir]
    · rw [(hmove.others hk hki).1]
  · rw [hnil, List.length_nil] at hlength
    omega

/-- A thread for a directory takes over what is in it. -/
theorem Walk.descend (h : Walk source sourceDir tree s g w rests) (hn : Nested s)
    (hstep : Step size threads s t) (hhold : Holding sourceDir destRoot th (g.visits i))
    (hstored : Stored source sourceDir destRoot tree) (hth : s.traversals[i]? = some th)
    (hpc : th.pc = .create)
    (ht : t.traversals = s.traversals.set i { th with pc := .join s.traversals.length } ++
      [.start (.srcPath i) (.destSubdir i)]) :
    ∃ rests', Walk source sourceDir tree t
      (g.visit s.traversals.length ⟨(g.visits i).path, []⟩)
      (w.finish (g.visits i).path .directory) rests' := by
  have hi := (List.getElem?_eq_some_iff.mp hth).1
  have hacts : th.pc.acts = true := by rw [hpc]; rfl
  have hwalker := h.walkers i th hth
  have hnext := h.next hn hth hacts
  have hplace := hwalker.place
  rw [hpc] at hplace
  obtain ⟨sub, rest, hf, hrest⟩ := hplace
  have hmounted := hwalker.mounted
  have hfits : Fits sourceDir destRoot (g.visits i).path := by
    refine h.fits hn hstored hth hacts ((g.visits i).path, none) ?_
    rw [hf]
    exact List.mem_cons_self
  rw [hf] at hmounted hnext
  obtain ⟨htop, hsub, hbelow⟩ := hmounted
  have hself := getElem?_mover ht hth
  have hlength : t.traversals.length = s.traversals.length + 1 := by
    rw [ht, List.length_append, List.length_set]
    rfl
  have hlast (k : ℕ) (hk : k < s.traversals.length) : k ≠ s.traversals.length := Nat.ne_of_lt hk
  refine ⟨Function.update (Function.update rests i rest) s.traversals.length sub,
    fun k x hk => ?_, fun _ => ?_, fun hnil => ?_⟩
  · by_cases hkn : k = s.traversals.length
    · subst hkn
      have hnew : x = .start (.srcPath i) (.destSubdir i) := by
        rw [ht, List.getElem?_append_right (by rw [List.length_set]), List.length_set,
          Nat.sub_self] at hk
        exact (Option.some.inj hk).symm
      subst hnew
      rw [Names.visit_self, Function.update_self]
      refine ⟨hsub, htop, fun _ => ?_⟩
      have hsrc := hhold.srcPath (by rw [hpc]; rfl)
      simp [Traversal.start, State.read, hself, hsrc, hfits.srcPath]
    rw [Names.visit_of_ne hkn, Function.update_of_ne hkn]
    by_cases hki : k = i
    · subst hki
      rw [hself] at hk
      cases hk
      rw [Function.update_self]
      exact hwalker.mover hn hstep hth hself rfl hbelow hrest
    · rw [Function.update_of_ne hki]
      have hold : s.traversals[k]? = some x := by
        have hlt := (List.getElem?_eq_some_iff.mp hk).1
        rw [ht, List.getElem?_append_left (by rw [List.length_set]; omega),
          List.getElem?_set_ne (Ne.symm hki)] at hk
        exact hk
      exact (h.walkers k x hold).frame hn hstep hold
  · have hlater (k : ℕ) (hik : i < k) (hk : k < s.traversals.length) :
        Function.update (Function.update rests i rest) s.traversals.length sub k = .nil := by
      have hget := List.getElem?_eq_getElem hk
      rw [Function.update_of_ne (hlast k hk), Function.update_of_ne (Nat.ne_of_gt hik)]
      exact h.finished hget (hn.later_exited hth hacts hik hget)
    have hbefore : Forest.pending
        (fun k => ((g.visit s.traversals.length ⟨(g.visits i).path, []⟩).visits k).dir)
        (Function.update (Function.update rests i rest) s.traversals.length sub) i =
        Forest.pending (fun k => (g.visits k).dir) rests i := by
      refine Forest.pending_congr fun k hk => ⟨?_, ?_⟩
      · rw [Names.visit_of_ne (hlast k (by omega))]
      · rw [Function.update_of_ne (hlast k (by omega)), Function.update_of_ne (Nat.ne_of_lt hk)]
    rw [hlength, Forest.pending, Forest.pending_at hi hlater, hbefore, Function.update_self,
      Function.update_of_ne (hlast i hi), Function.update_self, Names.visit_self,
      Names.visit_of_ne (hlast i hi), ← hnext]
    simp [World.finish, Forest.visits, entries, kind, Visit.path]
  · rw [hnil, List.length_nil] at hlength
    omega

theorem Walk.traverse (h : Walk source sourceDir tree s g w rests) (hn : Nested s)
    (hstep : Step size threads s t) (hhold : Holding sourceDir destRoot th (g.visits i))
    (hstored : Stored source sourceDir destRoot tree) (hth : s.traversals[i]? = some th)
    (hmoved : TreeMoved source size s g w i th t g' w') :
    ∃ rests', Walk source sourceDir tree t g' w' rests' := by
  obtain ⟨th', created, ht, hmove⟩ := hmoved
  have hi := (List.getElem?_eq_some_iff.mp hth).1
  have hwalker := h.walkers i th hth
  rcases hmove.acts with hacts | hquiet
  · rcases hmove.created_nil_or with rfl | ⟨hpc, rfl, rfl, rfl, rfl⟩
    · have hnext := h.next hn hth hacts
      obtain ⟨f', hmounted, hplace, hdone⟩ :=
        hmove.walks hwalker hhold (h.fits hn hstored hth hacts)
      rw [List.append_nil] at ht
      refine ⟨_, h.go hn hstep hth ht hmove hmounted hplace ?_⟩
      have hlater (k : ℕ) (hik : i < k) (hk : k < s.traversals.length) :
          Function.update rests i f' k = .nil := by
        have hget := List.getElem?_eq_getElem hk
        rw [Function.update_of_ne (Nat.ne_of_gt hik)]
        exact h.finished hget (hn.later_exited hth hacts hik hget)
      have hbefore : Forest.pending (fun k => (g.visits k).dir) (Function.update rests i f') i =
          Forest.pending (fun k => (g.visits k).dir) rests i :=
        Forest.pending_congr fun k hk => ⟨rfl, Function.update_of_ne (Nat.ne_of_lt hk) ..⟩
      rw [Forest.pending_at hi hlater, hbefore, Function.update_self, entries_append,
        ← List.append_assoc, hdone, hnext]
    · exact h.descend hn hstep hhold hstored hth hpc ht
  · obtain ⟨rfl, rfl, rfl, hstage⟩ := hquiet
    rw [List.append_nil] at ht
    refine ⟨_, h.go hn hstep hth ht hmove hwalker.mounted (hstage ▸ hwalker.place) ?_⟩
    rw [Function.update_eq_self]
    exact h.all (List.ne_nil_of_length_pos (by omega))

theorem Walk.wakes (h : Walk source sourceDir tree s g w rests) (hn : Nested s)
    (hstep : Step size threads s t) (hu : s.WakesTraversal u)
    (hts : t.traversals = u.traversals) (hstreams : w'.streams = w.streams)
    (hdone : w'.done = w.done) : Walk source sourceDir tree t g w' rests := by
  have hwoken : t.traversals.length = s.traversals.length ∧
      ∀ (k : ℕ) (x : Traversal), t.traversals[k]? = some x →
        ∃ y, s.traversals[k]? = some y ∧ x.sourceDir = y.sourceDir ∧ x.pc.stage = y.pc.stage ∧
          (x.pc ≠ .exited → y.pc ≠ .exited) := by
    rw [hts]
    cases hu with
    | nobody => exact ⟨rfl, fun k x hk => ⟨x, hk, rfl, rfl, id⟩⟩
    | @one j y file hj hpc =>
      refine ⟨List.length_set, fun k x hk => ?_⟩
      rcases getElem?_set_some hk with ⟨rfl, rfl⟩ | ⟨-, hold⟩
      · exact ⟨y, hj, rfl, by rw [hpc]; rfl, fun _ => by rw [hpc]; nofun⟩
      · exact ⟨x, hold, rfl, rfl, id⟩
  obtain ⟨hlength, hwoken⟩ := hwoken
  refine ⟨fun k x hk => ?_, fun hne => ?_, fun hnil => ?_⟩
  · obtain ⟨y, hy, hsrc, hstage, hlive⟩ := hwoken k x hk
    have hold := h.walkers k y hy
    rw [hstreams]
    refine ⟨hold.mounted, hstage ▸ hold.place, fun hx => ?_⟩
    rw [hsrc, (hn.read_step hstep hy (hlive hx)).1, hold.reads (hlive hx)]
  · rw [hlength, hdone]
    refine h.all (List.ne_nil_of_length_pos ?_)
    rw [← hlength]
    exact List.length_pos_iff.mpr hne
  · rw [hnil] at hlength
    rw [hdone]
    exact h.fresh (List.length_eq_zero_iff.mp hlength.symm)

/-- The thread that `main` creates has the whole tree before it. -/
theorem Walk.root (h : Walk source sourceDir tree s g w rests)
    (hp : PathsOk sourceDir destRoot s g) (hstored : Stored source sourceDir destRoot tree)
    (hnil : s.traversals = []) (ht : t.traversals = [.start .mainSource .mainDest])
    (hsource : t.sourceDir = s.sourceDir) :
    Walk source sourceDir tree t g w fun _ => tree := by
  have hreads : t.sourceDir = sourceDir ++ relativePath (g.visits 0).dir := by
    rw [hsource, hp.source, hp.root]
    exact (List.append_nil _).symm
  refine ⟨fun k x hk => ?_, fun _ => ?_, fun hne => ?_⟩
  · rw [ht] at hk
    obtain ⟨hlt, rfl⟩ := List.getElem?_eq_some_iff.mp hk
    obtain rfl : k = 0 := by simpa using hlt
    refine ⟨?_, ?_, fun _ => hreads⟩
    · rw [hp.root]
      exact hstored.below
    · have htop : source (sourceDir ++ relativePath (g.visits 0).dir) =
          some (.directory tree.names) := by
        rw [← hreads, hsource, hp.source]
        exact hstored.top
      exact htop
  · rw [h.fresh hnil, ht]
    have hall : Forest.pending (fun k => (g.visits k).dir) (fun _ => tree) 1 = tree.visits [] := by
      rw [Forest.pending, hp.root]
      exact List.append_nil _
    exact congrArg entries hall
  · rw [ht] at hne
    contradiction

theorem Walk.step {a : Action} (h : Walk source sourceDir tree s g w rests) (hn : Nested s)
    (hp : PathsOk sourceDir destRoot s g) (hstored : Stored source sourceDir destRoot tree)
    (hnext : (copier size threads).next s a = some t)
    (hworld : World.next source (s, g) a w = some w') :
    ∃ rests', Walk source sourceDir tree t (Names.record s a g) w' rests' := by
  have hstep : Step size threads s t := copier_step hnext
  have hacts := copier_acts hnext
  clear hnext
  cases hacts with
  | @main r mpc' u hmove =>
    have hsame : w' = w := by
      cases r <;> first | contradiction | exact (Option.some.inj hworld).symm
    subst hsame
    generalize hm : s.main = mpc at hmove
    cases hmove with
    | createRoot => exact ⟨_, h.root hp hstored (hn.locked.fresh hm) rfl rfl⟩
    | _ => exact ⟨_, h.wakes hn hstep .nobody rfl rfl rfl⟩
  | @traverse i th r _ hth hmove =>
    have hwalker := h.walkers i th hth
    have hfine : th.pc.stage ≠ .failed := by
      intro hfailed
      have hplace := hwalker.place
      rwa [hfailed] at hplace
    simp only [World.next, hth, Option.bind_some] at hworld
    simp only [Names.record, hth]
    exact h.traverse hn hstep (hp.holding i th hth) hstored hth
      (traverse_tree hth hmove hworld rfl hfine)
  | @work i pc r _ hpc hwork =>
    obtain ⟨pc', v, hmove, rfl⟩ := State.work_move hwork
    obtain ⟨-, -, u, hu, -, hts⟩ := hmove.wakes
    simp only [World.next, hpc, Option.bind_some] at hworld
    obtain ⟨hstreams, hdone⟩ := World.work_walk hworld
    exact ⟨_, h.wakes hn hstep hu hts hstreams hdone⟩
  | spuriousTraversal hu =>
    cases hworld
    exact ⟨_, h.wakes hn hstep hu rfl rfl rfl⟩
  | spuriousWorker hu =>
    cases hworld
    refine ⟨_, h.wakes hn hstep .nobody ?_ rfl rfl⟩
    cases hu <;> rfl

end Walk

/-! ### Whole runs -/

structure Walking (source : Source) (sourceDir destRoot : Bytes) (tree : Forest Bytes Leaf)
    (x : (State × Names) × World) : Prop where
  nested : Nested x.1.1
  paths : PathsOk sourceDir destRoot x.1.1 x.1.2
  walk : ∃ rests, Walk source sourceDir tree x.1.1 x.1.2 x.2 rests

theorem backup_walks {size threads : ℕ} {sourceDir destRoot : Bytes} {source : Source}
    {dest : Bytes → Option DestNode} {tree : Forest Bytes Leaf}
    (hstored : Stored source sourceDir destRoot tree) :
    (backup size threads sourceDir (destRoot.take 1023) source dest).Inductive
      (fun _ _ => True) (Walking source sourceDir destRoot tree) where
  base x hx := by
    have hnamed : Nested x.1.1 ∧ PathsOk sourceDir destRoot x.1.1 x.1.2 :=
      namedCopier_inductive.base x.1 hx.1
    have hnil : x.1.1.traversals = [] := hx.1.1.1.traversals
    refine ⟨hnamed.1, hnamed.2, fun _ => .nil, fun k th hk => ?_, fun hne => absurd hnil hne,
      fun _ => hx.2.done⟩
    rw [hnil] at hk
    contradiction
  keep x a y h _ hn := by
    obtain ⟨hnamed, hworld⟩ := Machine.beside_next hn
    have hkeep := namedCopier_inductive.keep x.1 a y.1 ⟨h.nested, h.paths⟩
      (World.next_namesOk hworld) hnamed
    obtain ⟨hnext, hrecord, -⟩ := backup_next hn
    obtain ⟨rests, hwalk⟩ := h.walk
    refine ⟨hkeep.1, hkeep.2, ?_⟩
    rw [hrecord]
    exact hwalk.step h.nested h.paths hstored hnext hworld

/-- When all threads have exited the tree has been dealt with, each entry once. -/
theorem Walking.done {source : Source} {sourceDir destRoot : Bytes} {tree : Forest Bytes Leaf}
    {x : (State × Names) × World} (h : Walking source sourceDir destRoot tree x)
    (hm : x.1.1.main = .report) : x.2.done = entries (tree.visits []) := by
  obtain ⟨rests, hwalk⟩ := h.walk
  obtain ⟨root, hroot, -⟩ := h.nested.root (by rw [hm]; rfl)
  have hne : x.1.1.traversals ≠ [] := by
    intro hnil
    rw [hnil] at hroot
    contradiction
  rw [← hwalk.all hne, Forest.pending_nil fun k hk => ?_]
  · exact (List.append_nil _).symm
  · have hget := List.getElem?_eq_getElem hk
    exact hwalk.finished hget (h.nested.exited_at_report hm (List.getElem_mem hk))

end AdvancedCProjects.Copier
