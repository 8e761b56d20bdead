import AdvancedCProjects.Base.Sharing
import AdvancedCProjects.Bibak.Propagation

/-!
# Several clients at once (BibakBOXServer.c:379-465, 521-559)

Every client has a worker of its own, and the workers share the disk. `owned` are
the paths below the base directory whose files a client changes, each client under
the conditions under which it alone is mirrored (`Orderly`).
-/

namespace AdvancedCProjects.Bibak
open Base

def Op.path : Op → Path
  | .create path | .delete path | .update path _ => path

/-- Another process changes only files of `owned`. -/
def ChangesOnly (base : Path) (owned : Set Path) (s : Client) : Action → Prop
  | .env tree => ∀ f ∈ tree.files base, f ∉ s.tree.files base → removeBasePath f.path base ∈ owned
  | _ => True

/-- The path that is reported next. -/
def Pc.Reports (base : Path) (owned : Set Path) (table : Block) : Pc → Prop
  | .created p => removeBasePath p base ∈ owned
  | .updated i => removeBasePath (table i).filepath base ∈ owned
  | _ => True

/-- The files outside `owned` are those of the initial synchronisation, and the client does not
speak of them. -/
structure Untouched (base : Path) (owned : Set Path) (s : Client) : Prop where
  kept : ∀ f ∈ s.tree.files base, removeBasePath f.path base ∉ owned → f ∈ s.synced.files base
  timed : ∀ i < s.globCount, ∀ f ∈ s.tree.files base, (s.table i).filepath = f.path →
    removeBasePath f.path base ∉ owned → (s.table i).lastModifiedTime = f.mtime
  reports : s.pc.Reports base owned s.table
  sent : ∀ m ∈ s.sent, m.op.path ∈ owned

section Client
variable {base : Path} {owned : Set Path} {s t : Client} {a : Action}

theorem mem_applyPath (ms : List Message) {r : Path} {paths : List Path}
    (h : ∀ m ∈ ms, m.op.path ≠ r) (hr : r ∈ paths) : r ∈ ms.foldl Message.applyPath paths := by
  induction ms generalizing paths with
  | nil => exact hr
  | cons m ms ih =>
    refine ih (fun m hm => h m (List.mem_cons_of_mem _ hm)) ?_
    cases m with
    | create path size => exact List.mem_cons_of_mem _ hr
    | delete path =>
      have hne := h _ List.mem_cons_self
      simp only [Message.op, Op.path] at hne
      simp [Message.applyPath, hr, Ne.symm hne]
    | update size path data => exact hr

/-- A path outside `owned` stays on the server. -/
theorem Untouched.served (h : Untouched base owned s) {f : Inode} (hf : f ∈ s.tree.files base)
    (hout : removeBasePath f.path base ∉ owned) :
    removeBasePath f.path base ∈ serverPaths base s := by
  refine mem_applyPath s.sent (fun m hm heq => hout (heq ▸ h.sent m hm)) ?_
  exact List.mem_map_of_mem (List.mem_map_of_mem (h.kept f hf hout))

theorem scan_timed {tree : Listing} {junk : Block} {i : ℕ} {f : Inode} (hok : tree.NamesOk)
    (hfit : tree.Fits base) (hi : i < (scan base tree junk).count) (hf : f ∈ tree.files base)
    (hp : ((scan base tree junk).files i).filepath = f.path) :
    ((scan base tree junk).files i).lastModifiedTime = f.mtime := by
  obtain ⟨g, hg, hinfo⟩ := scan_listed hfit hi
  rw [hinfo] at hp ⊢
  rw [← node_unique hok (mem_nodes hg) (mem_nodes hf) hp]
  rfl

theorem Untouched.move (h : Untouched base owned s) {pc : Pc}
    (hpc : pc.Reports base owned s.table) : Untouched base owned { s with pc := pc } where
  kept := h.kept
  timed := h.timed
  reports := hpc
  sent := h.sent

theorem Untouched.checkCreate (h : Untouched base owned s) (hr : Recorded base s)
    (ht : Tracked base s) (hpc : s.pc = .checkCreate) :
    Untouched base owned (s.checkCreate base) := by
  simp only [Client.checkCreate, readTable_of_live hr.live]
  split
  · exact h.move trivial
  cases hm : firstMissing (scan base s.tree temp).entries (s.table.entries s.globCount) with
  | none => exact h.move trivial
  | some e =>
    refine h.move ?_
    obtain ⟨hmem, hmissing⟩ := firstMissing_some hm
    obtain ⟨i, hi, he⟩ := Block.mem_entries.mp hmem
    obtain ⟨f, hf, hinfo⟩ := scan_listed hr.fits hi
    have hpath : e.filepath = f.path := by
      rw [← he, hinfo]
      rfl
    show removeBasePath e.filepath base ∈ owned
    rw [hpath]
    by_contra hout
    -- the table has every path that the server has
    have hserved := h.served hf hout
    rw [ht.agree, hpc] at hserved
    have htable : base ++ removeBasePath f.path base ∈ tablePaths s := hserved
    rw [filePaths_below hr.names _ (List.mem_map_of_mem hf),
      tablePaths_of_live (hr.one ▸ hr.live)] at htable
    exact hmissing (hpath ▸ htable)

theorem Untouched.record (h : Untouched base owned s) (hr : Recorded base s) {i : ℕ} {f : Inode}
    (hf : f ∈ s.tree.files base) (hp : (s.table i).filepath = f.path) {pc : Pc}
    (hpc : pc.Reports base owned (Function.update s.table i
      { s.table i with lastModifiedTime := f.mtime })) :
    Untouched base owned { s with
      heap := Function.update s.heap s.param
        (some (Function.update s.table i { s.table i with lastModifiedTime := f.mtime }))
      pc := pc } := by
  have htable : Client.table { s with
      heap := Function.update s.heap s.param
        (some (Function.update s.table i { s.table i with lastModifiedTime := f.mtime }))
      pc := pc } = Function.update s.table i { s.table i with lastModifiedTime := f.mtime } := by
    simp [Client.table]
  constructor
  case kept => exact h.kept
  case reports => exact htable.symm ▸ hpc
  case sent => exact h.sent
  case timed =>
    intro j hj g hg
    rw [htable]
    by_cases hji : j = i
    · subst hji
      rw [Function.update_self]
      intro hgp _
      rw [node_unique hr.names (mem_nodes hg) (mem_nodes hf) (hgp.symm.trans hp)]
    · rw [Function.update_of_ne hji]
      exact h.timed j hj g hg

theorem Untouched.statEntry (h : Untouched base owned s) (hr : Recorded base s) {i : ℕ}
    (hpc : s.pc = .statEntry i) : Untouched base owned (s.statEntry base i) := by
  have hi : i < s.count := by simpa [hpc, PcOk] using hr.pcOk
  have hrange := hr.range
  obtain ⟨f, hf, hp, -⟩ := hr.listed i (by omega)
  have hstat : s.tree.stat base (s.table i).filepath = some f := hp ▸ stat_file hr.names hf
  simp only [Client.statEntry, hr.live, hstat]
  split
  · exact h.record hr hf hp trivial
  split
  · next hnewer =>
    refine h.record hr hf hp ?_
    rw [Pc.Reports, Function.update_self]
    by_contra hout
    dsimp only at hout
    rw [hp] at hout
    have hsame := h.timed i (by omega) f hf hp hout
    omega
  · exact h.move trivial

theorem Untouched.rescan (h : Untouched base owned s) (hr : Recorded base s) (junk : Block) :
    Untouched base owned { s with
      heap := s.rescanned base s.param s.param junk
      globCount := (scan base s.tree junk).count
      pc := .checkDelete } := by
  have htable : Client.table { s with
      heap := s.rescanned base s.param s.param junk
      globCount := (scan base s.tree junk).count
      pc := .checkDelete } = (scan base s.tree junk).files := by
    simp [Client.table, Client.rescanned]
  refine ⟨h.kept, fun i hi f hf hp _ => ?_, trivial, h.sent⟩
  rw [htable] at hp ⊢
  exact scan_timed hr.names hr.fits hi hf hp

theorem Untouched.keep (h : Untouched base owned s) (hr : Recorded base s) (ht : Tracked base s)
    (ha : ChangesOnly base owned s a) (htimely : Timely base s a)
    (hn : (watch base).next s a = some t) : Untouched base owned t := by
  cases watch_move hn with
  | @env tree hnames hfit =>
    have hold (f : Inode) (hf : f ∈ tree.files base) (hout : removeBasePath f.path base ∉ owned) :
        f ∈ s.tree.files base := by
      by_contra hnew
      exact hout (ha f hf hnew)
    exact ⟨fun f hf hout => h.kept f (hold f hf hout) hout,
      fun i hi f hf hp hout => h.timed i hi f (hold f hf hout) hp hout, h.reports, h.sent⟩
  | checkCreate hpc => exact h.checkCreate hr ht hpc
  | @created p hpc =>
    have hp := h.reports
    rw [hpc] at hp
    refine ⟨h.kept, h.timed, trivial, fun m hm => ?_⟩
    rcases List.mem_append.mp hm with hold | hnew
    · exact h.sent m hold
    · rw [List.mem_singleton.mp hnew]
      exact hp
  | checkDelete hpc =>
    have hroom := hr.room
    rw [← scan_count_min hr.fits (b := temp)] at hroom
    simp only [Client.checkDelete, if_pos hroom]
    exact h.move trivial
  | deleted hpc => exact absurd hr.pcOk (by simp [hpc, PcOk])
  | @checkUpdate i hpc =>
    simp only [Client.checkUpdate, hr.live]
    split
    · exact h.move trivial
    next hlt =>
    have hrange := hr.range
    obtain ⟨f, hf, hp, -⟩ := hr.listed i (by omega)
    rw [hp, stat_file hr.names hf]
    exact h.move trivial
  | statEntry hpc => exact h.statEntry hr hpc
  | @updated i hpc =>
    have hi := h.reports
    rw [hpc] at hi
    simp only [Client.reportUpdate, hr.live]
    refine ⟨h.kept, h.timed, trivial, fun m hm => ?_⟩
    rcases List.mem_append.mp hm with hold | hnew
    · exact h.sent m hold
    · rw [List.mem_singleton.mp hnew]
      exact hi
  | lost hpc hfreed =>
    rcases hpc with ⟨-, rfl⟩ | ⟨⟨p, hpc⟩, -⟩
    · rw [hr.live] at hfreed
      contradiction
    · exact absurd hr.pcOk (by simp [hpc, PcOk])
  | deleteRescan hpc hlive => exact absurd hr.pcOk (by simp [hpc, PcOk])
  | @createRescan p addr junk hpc hlive =>
    simp only [Timely, RescanTimely, hpc] at htimely
    obtain ⟨rfl, -⟩ := htimely
    exact h.rescan hr junk

theorem untouched_start (hs : (watch base).start s) : Untouched base owned s := by
  obtain ⟨hok, hfit, hsync, hsent, hpc, hone, -, junk, hheap, hglob⟩ := hs
  have htable : s.table = (scan base s.tree junk).files := by
    simp [Client.table, hone, hheap]
  refine ⟨fun f hf _ => hsync ▸ hf, fun i hi f hf hp _ => ?_, ?_, by simp [hsent]⟩
  · rw [htable] at hp ⊢
    exact scan_timed hok hfit (hglob ▸ hi) hf hp
  · rw [hpc]
    trivial

end Client

/-! ### What the operations do to one file -/

section Files
variable {basePath : Path} {cwd p : List FileName} {fs fs' : FileSystem} {path : Path}
  {server server' : Contents}

theorem applyContent_other {op : Op} (server : Contents) (h : op.path ≠ path) :
    op.applyContent server path = server path := by
  cases op <;> exact Function.update_of_ne (Ne.symm h) _ _

theorem applyContent_self {op : Op} (h : op.path = path) :
    op.applyContent server path = op.applyContent server' path := by
  subst h
  cases op <;> simp [Op.applyContent, Op.path]

theorem foldl_applyContent_other {ops : List Op} (h : ∀ op ∈ ops, op.path ≠ path) :
    ops.foldl Op.applyContent server path = server path := by
  induction ops generalizing server with
  | nil => rfl
  | cons op ops ih =>
    rw [List.foldl_cons, ih fun op hop => h op (List.mem_cons_of_mem _ hop),
      applyContent_other server (h op List.mem_cons_self)]

/-- What becomes of one file depends on what it was. -/
theorem foldl_applyContent_congr (ops : List Op) (h : server path = server' path) :
    ops.foldl Op.applyContent server path = ops.foldl Op.applyContent server' path := by
  induction ops generalizing server server' with
  | nil => exact h
  | cons op ops ih =>
    refine ih ?_
    by_cases hpath : op.path = path
    · exact applyContent_self hpath
    · rw [applyContent_other server hpath, applyContent_other server' hpath, h]

/-- The files below `p`. -/
noncomputable def filesOf (p : List FileName) (fs : FileSystem) : Contents :=
  Function.extend relativePath (fun r => fileAt fs (p ++ r)) fun _ => none

theorem filesOf_apply (r : List FileName) : filesOf p fs (relativePath r) = fileAt fs (p ++ r) :=
  relativePath_injective.extend_apply _ _ r

theorem carryOut_files {ops : List Op} (hnames : resolve fs cwd basePath = .ok p)
    (hdir : fs.node p = some .dir) (hops : ∀ op ∈ ops, op.Storable)
    (hcall : ops.foldlM (Op.apply basePath cwd) fs = some fs') :
    Holds basePath cwd p fs' (ops.foldl Op.applyContent (filesOf p fs)) := by
  have hbefore : Holds basePath cwd p fs (filesOf p fs) :=
    ⟨hnames, hdir, fun r => (filesOf_apply r).symm⟩
  exact hbefore.carryOut hops hcall

/-- The base directory stays, and of the files below it only those of `owned` change. -/
structure LeavesOthers (basePath : Path) (cwd p : List FileName) (owned : Set Path)
    (fs fs' : FileSystem) : Prop where
  names : resolve fs' cwd basePath = .ok p
  dir : fs'.node p = some .dir
  others : ∀ r, relativePath r ∉ owned → fileAt fs' (p ++ r) = fileAt fs (p ++ r)

end Files

/-! ### The clients and their workers -/

structure Attended where
  client : Client
  service : Service

/-- A step of client `i` or of its worker. -/
def Attended.next (base : ℕ → Path) (basePath : Path) (cwd : List FileName) (i : ℕ) (x : Attended)
    (disk : FileSystem) (a : PropagationStep) : Option (Attended × FileSystem) :=
  (Propagation.next (base i) basePath cwd ⟨x.client, x.service, disk⟩ a).map fun y =>
    (⟨y.client, y.service⟩, y.disk)

def attendance (base : ℕ → Path) (basePath : Path) (cwd p : List FileName) :
    Machine (Shared Attended FileSystem) (SharedStep Attended PropagationStep) :=
  sharing (fun disk => resolve disk cwd basePath = .ok p ∧ disk.node p = some .dir)
    (Attended.next base basePath cwd)

/-- No client but `i` changes the file. -/
def Unshared (owned : ℕ → Set Path) (i : ℕ) (r : List FileName) : Prop :=
  ∀ j, j ≠ i → relativePath r ∉ owned j

/-- The initial synchronisation has left to client `i` the files of the disk, except those that
other clients change. -/
structure Attended.Joins (base : ℕ → Path) (basePath : Path) (cwd p : List FileName)
    (owned : ℕ → Set Path) (i : ℕ) (x : Attended) (disk : FileSystem) : Prop where
  client : (watchFew (base i)).start x.client
  suits : ∀ f ∈ x.client.tree.files (base i), Suits (base i) basePath f
  pending : x.service.pending = []
  pc : x.service.pc = .top
  ops : x.service.ops = []
  names : resolve disk cwd basePath = .ok p
  dir : disk.node p = some .dir
  files : ∀ r, Unshared owned i r →
    fileAt disk (p ++ r) = fileContents (base i) x.client.tree (relativePath r)

def Attended.Keeps (base : ℕ → Path) (basePath : Path) (owned : ℕ → Set Path) (i : ℕ)
    (x : Attended) (disk : FileSystem) (a : PropagationStep) : Prop :=
  Orderly (base i) basePath ⟨x.client, x.service, disk⟩ a ∧
    ∀ b, a = .client b → ChangesOnly (base i) (owned i) x.client b

/-- The files that only client `i` changes are what its messages make of them. -/
structure Attended.Stored (base : ℕ → Path) (basePath : Path) (cwd p : List FileName)
    (owned : ℕ → Set Path) (i : ℕ) (x : Attended) (disk : FileSystem) : Prop where
  conveyed : Conveyed (base i) basePath x.client x.service
  untouched : Untouched (base i) (owned i) x.client
  names : resolve disk cwd basePath = .ok p
  dir : disk.node p = some .dir
  files : ∀ r, Unshared owned i r → fileAt disk (p ++ r) =
    x.service.ops.foldl Op.applyContent (fileContents (base i) x.client.synced) (relativePath r)

section Attended
variable {base : ℕ → Path} {basePath : Path} {cwd p : List FileName} {owned : ℕ → Set Path} {i : ℕ}
  {x y : Attended} {disk disk' : FileSystem}

theorem Attended.Joins.stored (h : x.Joins base basePath cwd p owned i disk) :
    x.Stored base basePath cwd p owned i disk := by
  have hsynced : x.client.synced = x.client.tree := h.client.1.2.2.1
  refine ⟨conveyed_start h.client h.suits h.pending h.pc h.ops, untouched_start h.client.1,
    h.names, h.dir, fun r hr => ?_⟩
  rw [h.ops, hsynced]
  exact h.files r hr

theorem Attended.Stored.client {a : Action} (h : x.Stored base basePath cwd p owned i disk)
    (ha : x.Keeps base basePath owned i disk (.client a))
    (hn : x.next base basePath cwd i disk (.client a) = some (y, disk')) :
    y.Stored base basePath cwd p owned i disk' ∧
      LeavesOthers basePath cwd p (owned i) disk disk' := by
  obtain ⟨z, hz, heq⟩ := Option.map_eq_some_iff.mp hn
  obtain ⟨c, hc, rfl⟩ := Option.map_eq_some_iff.mp hz
  obtain ⟨rfl, rfl⟩ := Prod.mk.inj heq
  obtain ⟨⟨hstep, htrees⟩, honly⟩ := ha
  have hsynced := next_synced hc
  have htimely : Timely (base i) x.client a := hstep.2.2
  refine ⟨⟨h.conveyed.client hstep htrees hc, ?_, h.names, h.dir, fun r hr => ?_⟩,
    h.names, h.dir, fun r hr => rfl⟩
  · exact h.untouched.keep h.conveyed.recorded h.conveyed.tracked (honly a rfl) htimely hc
  · rw [hsynced]
    exact h.files r hr

theorem Attended.Stored.worker {a : Recv} (h : x.Stored base basePath cwd p owned i disk)
    (ha : x.Keeps base basePath owned i disk (.worker a))
    (hn : x.next base basePath cwd i disk (.worker a) = some (y, disk')) :
    y.Stored base basePath cwd p owned i disk' ∧
      LeavesOthers basePath cwd p (owned i) disk disk' := by
  obtain ⟨z, hz, heq⟩ := Option.map_eq_some_iff.mp hn
  obtain ⟨s, hs, hz⟩ := Option.bind_eq_some_iff.mp hz
  obtain ⟨fs, hfs, rfl⟩ := Option.map_eq_some_iff.mp hz
  obtain ⟨rfl, rfl⟩ := Prod.mk.inj heq
  obtain ⟨hconveyed, ops, hops, hsent⟩ := h.conveyed.worker ha.1 hs
  rw [hops, List.drop_left] at hfs
  have hstorable (op : Op) (hop : op ∈ ops) : op.Storable := by
    obtain ⟨m, hm, rfl⟩ := hsent op hop
    exact (h.conveyed.sendable m hm).2
  have howned (op : Op) (hop : op ∈ ops) : op.path ∈ owned i := by
    obtain ⟨m, hm, rfl⟩ := hsent op hop
    exact h.untouched.sent m hm
  have hafter := carryOut_files h.names h.dir hstorable hfs
  refine ⟨⟨hconveyed, h.untouched, hafter.names, hafter.dir, fun r hr => ?_⟩,
    hafter.names, hafter.dir, fun r hr => ?_⟩
  · rw [hafter.files]
    show _ = s.ops.foldl Op.applyContent _ (relativePath r)
    rw [hops, List.foldl_append]
    refine foldl_applyContent_congr ops ?_
    rw [filesOf_apply]
    exact h.files r hr
  · rw [hafter.files, ← filesOf_apply]
    exact foldl_applyContent_other fun op hop heq => hr (heq ▸ howned op hop)

theorem attended_relies (base : ℕ → Path) (basePath : Path) (cwd p : List FileName)
    (owned : ℕ → Set Path) : RelyGuarantee (Attended.next base basePath cwd)
      (fun i x => x.Joins base basePath cwd p owned i)
      (fun i x => x.Keeps base basePath owned i)
      (fun i x => x.Stored base basePath cwd p owned i)
      (fun i => LeavesOthers basePath cwd p (owned i)) where
  base _ _ _ h := h.stored
  keep i x disk a y disk' h ha hn := by
    cases a with
    | client a => exact h.client ha hn
    | worker a => exact h.worker ha hn
  stable i j x disk disk' hji h hothers := by
    refine ⟨h.conveyed, h.untouched, hothers.names, hothers.dir, fun r hr => ?_⟩
    rw [hothers.others r (hr j hji)]
    exact h.files r hr

end Attended

def memoName : FileName := ⟨utf8 "m.txt", by decide⟩

def fileOf (i : ℕ) : FileName := if i = 0 then notesName else memoName

def ownFile (i : ℕ) : Set Path := {relativePath [fileOf i]}

def twoDisk : FileSystem :=
  notesDisk.put [nameS, memoName] (.file (utf8 "old")) (by decide) (by decide)

def holder (n : FileName) : Attended :=
  ⟨.atStart watchedDir (oneFile n.val 1 (utf8 "old")), ⟨[], 0, .top, []⟩⟩

def twoStart : Shared Attended FileSystem := ⟨[holder notesName, holder memoName], twoDisk⟩

/-- Only the second listing of a file comes from outside. -/
def RewritesOwn (i : ℕ) (x : Attended) : PropagationStep → Prop
  | .client a => GrowsOneAtATime watchedDir x.client a ∧ (match a with
      | .env tree => tree = oneFile (fileOf i).val 2 (utf8 "new")
      | _ => True)
  | .worker a => Whole x.service a

def BothRewrite (s : Shared Attended FileSystem) : SharedStep Attended PropagationStep → Prop
  | .join _ => False
  | .move i a => ∀ x ∈ s.parties[i]?, RewritesOwn i x a

instance (i : ℕ) (x : Attended) : DecidablePred (RewritesOwn i x)
  | .client (.env tree) => inferInstanceAs (Decidable ((_ ∧ _) ∧ tree = _))
  | .client .poll | .client (.rescan _ _) => inferInstanceAs (Decidable ((_ ∧ _) ∧ True))
  | .worker a => inferInstanceAs (Decidable (Whole x.service a))

instance (s : Shared Attended FileSystem) : DecidablePred (BothRewrite s)
  | .join _ => inferInstanceAs (Decidable False)
  | .move i a => inferInstanceAs (Decidable (∀ x ∈ s.parties[i]?, RewritesOwn i x a))

abbrev both : Machine (Shared Attended FileSystem) (SharedStep Attended PropagationStep) :=
  attendance (fun _ => watchedDir) (utf8 "/s") [] [nameS]

def bothPoll : List (SharedStep Attended PropagationStep) :=
  [.move 0 (.client .poll), .move 1 (.client .poll)]

def bothRead (n : ℕ) : List (SharedStep Attended PropagationStep) :=
  [.move 1 (reads n), .move 0 (reads n)]

def bothSent : Shared Attended FileSystem :=
  ((both.guarded BothRewrite).run twoStart
    ([.move 1 (.client (.env (oneFile memoName.val 2 (utf8 "new")))),
      .move 0 (.client (.env (notes 2 (utf8 "new"))))] ++ bothPoll ++ bothPoll ++ bothPoll ++
      bothPoll ++ bothPoll)).get (by decide +kernel)

def bothStored : Shared Attended FileSystem :=
  ((both.guarded BothRewrite).run bothSent (bothRead 4 ++ bothRead 11 ++ bothRead 8 ++
    bothRead 4 ++ bothRead 6 ++ bothRead 3)).get (by decide +kernel)

def firstMoves (a : Action) : SharedStep Attended PropagationStep := .move 0 (.client a)

def bothSettled : Shared Attended FileSystem :=
  ((both.guarded BothRewrite).run bothStored (onceMore.map firstMoves)).get (by decide +kernel)

theorem fileOf_suits (i : ℕ) {mtime : ℤ} {content : Bytes} (hsize : content.length < 2 ^ 31) :
    ∀ f ∈ (oneFile (fileOf i).val mtime content).files watchedDir,
      Suits watchedDir (utf8 "/s") f := by
  have hname : fileOf i = notesName ∨ fileOf i = memoName := by
    unfold fileOf
    split
    · exact .inl rfl
    · exact .inr rfl
  rcases hname with hname | hname
  all_goals
    rw [hname]
    exact oneFile_suits (by decide) (by decide) (by decide) (by decide) hsize

theorem twoDisk_file (r : List FileName) : fileAt twoDisk ([nameS] ++ r) =
    if r = [notesName] ∨ r = [memoName] then some (utf8 "old") else none := by
  have hnode : twoDisk.node ([nameS] ++ r) =
      if r = [memoName] then some (.file (utf8 "old"))
      else if r = [notesName] then some (.file (utf8 "old"))
      else if r = [] then some .dir else none := by
    simp [twoDisk, notesDisk, oneFolder, Disk.node_blank]
  rw [fileAt, hnode]
  by_cases hmemo : r = [memoName]
  · simp [hmemo]
  · by_cases hnotes : r = [notesName]
    · simp [hnotes]
    · by_cases hnil : r = [] <;> simp [hmemo, hnotes, hnil]

theorem holder_joins {i : ℕ} (hi : i < 2) : (holder (fileOf i)).Joins (fun _ => watchedDir)
    (utf8 "/s") [] [nameS] ownFile i twoDisk where
  client := by
    refine ⟨atStart_start _ _ ?_ ?_, ?_⟩
    all_goals
      rcases Nat.lt_succ_iff_lt_or_eq.mp hi with hlt | rfl
      · obtain rfl : i = 0 := by omega
        decide
      · decide
  suits := fileOf_suits i (by decide)
  pending := rfl
  pc := rfl
  ops := rfl
  names := by decide
  dir := by decide
  files r hr := by
    have hcontents : fileContents watchedDir (holder (fileOf i)).client.tree (relativePath r) =
        if r = [fileOf i] then some (utf8 "old") else none := oneFile_contents ..
    rw [twoDisk_file, hcontents]
    -- the other file is the other client's
    have hother (j : ℕ) (hj : j ≠ i) : r ≠ [fileOf j] := fun heq =>
      hr j hj (by rw [heq]; rfl)
    rcases Nat.lt_succ_iff_lt_or_eq.mp hi with hlt | rfl
    · obtain rfl : i = 0 := by omega
      have hmemo : r ≠ [memoName] := hother 1 (by decide)
      simp [hmemo, fileOf]
    · have hnotes : r ≠ [notesName] := hother 0 (by decide)
      simp [hnotes, fileOf]

/-- What the two clients may do. -/
abbrev allowed : Shared Attended FileSystem → SharedStep Attended PropagationStep → Prop :=
  Shared.Allows (fun i x => x.Joins (fun _ => watchedDir) (utf8 "/s") [] [nameS] ownFile i)
    (fun i x => x.Keeps (fun _ => watchedDir) (utf8 "/s") ownFile i)

theorem bothRewrite_allowed (s : Shared Attended FileSystem)
    (a : SharedStep Attended PropagationStep) (h : BothRewrite s a) : allowed s a := by
  cases a with
  | join x => exact h.elim
  | move i a =>
    intro x hx
    have hown := h x hx
    cases a with
    | worker a => exact ⟨hown, by simp⟩
    | client a =>
      refine ⟨⟨hown.1, ?_⟩, ?_⟩
      · rintro tree rfl
        have htree : tree = oneFile (fileOf i).val 2 (utf8 "new") := hown.2
        exact htree ▸ fileOf_suits i (by decide)
      · rintro b heq
        obtain rfl := PropagationStep.client.inj heq
        cases a with
        | env tree =>
          have htree : tree = oneFile (fileOf i).val 2 (utf8 "new") := hown.2
          intro f hf _
          rw [htree] at hf
          obtain rfl := List.mem_singleton.mp hf
          have hpath : relativePath [fileOf i] = slash :: (fileOf i).val := by simp
          have hhead : (fileOf i).val.head? ≠ some slash := fun heq =>
            (fileOf i).no_slash (List.mem_of_mem_head? heq)
          show removeBasePath (watchedDir ++ slash :: (fileOf i).val) watchedDir ∈ ownFile i
          rw [removeBasePath_below watchedDir _ hhead, ← hpath]
          exact rfl
        | poll => trivial
        | rescan addr junk => trivial

theorem both_reaches : both.Reaches allowed bothStored ∧ both.Reaches allowed bothSettled := by
  have hnone : both.Reaches allowed ⟨[], twoDisk⟩ := .start ⟨rfl, by decide, by decide⟩
  have hone : both.Reaches allowed ⟨[holder notesName], twoDisk⟩ :=
    hnone.step (a := .join (holder notesName)) (holder_joins (i := 0) (by decide)) rfl
  have hstart : both.Reaches allowed twoStart :=
    hone.step (a := .join (holder memoName)) (holder_joins (i := 1) (by decide)) rfl
  have hsent : both.Reaches allowed bothSent :=
    hstart.run_sub bothRewrite_allowed _ (Option.some_get _).symm
  have hstored : both.Reaches allowed bothStored :=
    hsent.run_sub bothRewrite_allowed _ (Option.some_get _).symm
  have hsettled : both.Reaches allowed bothSettled :=
    hstored.run_sub bothRewrite_allowed _ (Option.some_get _).symm
  exact ⟨hstored, hsettled⟩

/-- Client 0 in a state of the two. -/
def HasClient (s : Shared Attended FileSystem) (c : Client) : Prop :=
  ∃ x, s.parties[0]? = some x ∧ x.client = c

theorem both_step {s t : Shared Attended FileSystem} {a : Action} {c : Client}
    (hc : HasClient s c) (h : (both.guarded BothRewrite).next s (firstMoves a) = some t) :
    ∃ d, HasClient t d ∧ GrowsOneAtATime watchedDir c a ∧ (watch watchedDir).next c a = some d := by
  obtain ⟨x, hx, rfl⟩ := hc
  simp only [Machine.guarded] at h
  split at h
  · next hok =>
    obtain ⟨x', hx', hmove⟩ := Option.bind_eq_some_iff.mp h
    obtain rfl : x = x' := Option.some.inj (hx.symm.trans hx')
    obtain ⟨⟨y, disk⟩, hnext, rfl⟩ := Option.map_eq_some_iff.mp hmove
    obtain ⟨z, hz, heq⟩ := Option.map_eq_some_iff.mp hnext
    obtain ⟨d, hd, rfl⟩ := Option.map_eq_some_iff.mp hz
    obtain ⟨rfl, rfl⟩ := Prod.mk.inj heq
    have hlt := (List.getElem?_eq_some_iff.mp hx).1
    exact ⟨d, ⟨_, List.getElem?_set_self hlt, rfl⟩, (hok x hx).1, hd⟩
  · contradiction

def storedFirst : Attended := (bothStored.parties[0]?).get (by decide +kernel)

def settledFirst : Attended := (bothSettled.parties[0]?).get (by decide +kernel)

theorem both_path : (watch watchedDir).Path (fun c a => a.IsLoop ∧ GrowsOneAtATime watchedDir c a)
    storedFirst.client settledFirst.client := by
  have hrun := (Option.some_get (x := (both.guarded BothRewrite).run bothStored
    (onceMore.map firstMoves)) (by decide +kernel)).symm
  have hproject : ∃ d, HasClient bothSettled d ∧ (watch watchedDir).Path
      (fun c a => a.IsLoop ∧ GrowsOneAtATime watchedDir c a) storedFirst.client d := by
    refine Machine.run_projects HasClient firstMoves [.poll, .poll, .poll, .poll] (b := .poll)
      (fun b hb s t c hc hn => ?_) ⟨storedFirst, (Option.some_get _).symm, rfl⟩ hrun
    obtain ⟨d, hd, hok, hnext⟩ := both_step hc hn
    have hpoll : b = .poll := by simpa using hb
    exact ⟨d, hd, ⟨by rw [hpoll]; trivial, hok⟩, hnext⟩
  obtain ⟨d, ⟨y, hy, rfl⟩, hpath⟩ := hproject
  have hsettled : bothSettled.parties[0]? = some settledFirst := (Option.some_get _).symm
  obtain rfl : settledFirst = y := Option.some.inj (hsettled.symm.trans hy)
  exact hpath

end AdvancedCProjects.Bibak
