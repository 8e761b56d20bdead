import AdvancedCProjects.Bibak.Joiners
import AdvancedCProjects.Bibak.Propagation

/-!
# The first copy (BibakBOXServer.c:379-403, BibakBOXClient.c:506-680)

A client that connects, with its disk: it reads the path and the list of the server, makes
what the list names and saves the files as they come. A file has its bytes once it is
closed. The directory of the server stays as it is until everything has been sent, though
the workers of the other clients may write to it.
-/

namespace AdvancedCProjects.Bibak
open Base

/-! ### The two programs -/

/-- What a worker sends before its loop. -/
def Host.stream (basePath : Path) (cwd : List FileName) (dirSize : ℕ) (s : Host) : Bytes :=
  encodeInt 4 basePath.length ++ (basePath ++ (sendDirectoryContents s.contents ++
    (Frames.sendFile (s.requests cwd dirSize)).1.flatMap Sent.bytes))

/-- How far the client is with the path of the server. -/
inductive Greeting where
  | pathLength
  | path (pathLength : ℤ)
  | greeted (sourceDirectory : Path)

structure Startup where
  greeting : Greeting
  sync : Sync
  disk : FileSystem

/-- `heap` stands in memory behind the bytes that were read of the path. -/
structure StartupRead where
  read : SyncRead
  heap : Bytes

def SyncPc.receiving : SyncPc → Bool
  | .count | .record _ => true
  | .fileSize _ _ | .fileData _ _ _ _ | .done | .exited => false

/-- `fopen` of the file whose size is read. -/
def Sync.fopen (cwd : List FileName) (s : Sync) (disk : FileSystem) : Option FileSystem :=
  match s.pc with
  | .fileSize newPath _ => (writeFile disk cwd newPath []).toOption
  | _ => some disk

def saveCopy (cwd : List FileName) (disk : FileSystem) (copy : Path × Bytes) : FileSystem :=
  (writeFile disk cwd copy.1 copy.2).toOption.getD disk

/-- The disk when the client has come from `s` to `t`. -/
def Sync.touch (cwd : List FileName) (sourceDirectory destinationDirectory : Path) (s t : Sync)
    (disk : FileSystem) : FileSystem :=
  if s.pc.receiving then
    if t.pc.receiving then disk
    else (createSameDirectoryStructure cwd sourceDirectory destinationDirectory t.contents
      (.init disk)).fs
  else (t.saved.drop s.saved.length).foldl (saveCopy cwd) disk

def Startup.next (directoryPath : Path) (cwd : List FileName) (x : Startup) (a : StartupRead) :
    Option Startup :=
  match x.greeting with
  | .pathLength => (recvInt 4 a.read.n a.read.old x.sync.pending).map fun r =>
      { x with greeting := .path r.1, sync := { x.sync with pending := r.2 } }
  | .path pathLength => (recv pathLength.toNat a.read.n x.sync.pending).map fun r =>
      { x with
        greeting := .greeted (cstr (r.1 ++ a.heap))
        sync := { x.sync with pending := r.2 } }
  | .greeted path =>
      let opened := x.sync.fopen cwd x.disk
      (Sync.next path directoryPath x.sync { a.read with fs := opened.isSome }).map fun s =>
        { x with
          sync := s
          disk := x.sync.touch cwd path directoryPath s (opened.getD x.disk) }

/-- A client whose directory has been cleared connects to the server `s`. -/
def startup (basePath directoryPath : Path) (serverCwd cwd : List FileName) (dirSize : ℕ)
    (s : Host) (client : FileSystem) : Machine Startup StartupRead where
  start x := x = ⟨.pathLength, ⟨s.stream basePath serverCwd dirSize, [], [], .count⟩, client⟩
  next := Startup.next directoryPath cwd

/-- The path comes in one piece and a terminator happens to stand behind it; what
follows comes as `Sync.Whole` says. -/
def Startup.Whole (x : Startup) (a : StartupRead) : Prop :=
  match x.greeting with
  | .pathLength => a.read.n = 4
  | .path pathLength => a.read.n = pathLength ∧ a.heap.head? = some 0
  | .greeted _ => x.sync.Whole { a.read with fs := true }

instance (x : Startup) (a : StartupRead) : Decidable (x.Whole a) := by
  unfold Startup.Whole
  split <;> infer_instance

/-! ### The reads -/

section Reads
variable {src dst : Path} {contents : List FilePath} {read : FilePath → Bytes} {s t : Sync}
  {a : SyncRead}

theorem Sync.At.saved (h : s.At src dst contents read) :
    s.saved <+: copies src dst read (files contents) := by
  have hsaving {todo : List FilePath} (h : Saving src dst contents read s todo) :
      s.saved <+: copies src dst read (files contents) := by
    obtain ⟨-, finished, hfiles, hsaved⟩ := h
    rw [hsaved, hfiles]
    exact (List.prefix_append finished todo).map _
  cases hpc : s.pc <;> simp only [Sync.At, hpc] at h
  case count => simp [h.2.2]
  case record left =>
    obtain ⟨todo, -, -, -, hsaved, -⟩ := h
    simp [hsaved]
  case fileSize newPath later =>
    obtain ⟨e, todo, hs, -⟩ := h
    exact hsaving hs
  case fileData newPath later fileSize written =>
    obtain ⟨e, todo, rest, hs, -⟩ := h
    exact hsaving hs
  case done => exact hsaving h.1

theorem Sync.At.received (h : s.At src dst contents read) (hr : s.pc.receiving = false) :
    s.contents = contents := by
  cases hpc : s.pc <;> simp only [Sync.At, hpc] at h
  case count | record left => simp [hpc, SyncPc.receiving] at hr
  case fileSize newPath later =>
    obtain ⟨e, todo, hs, -⟩ := h
    exact hs.1
  case fileData newPath later fileSize written =>
    obtain ⟨e, todo, rest, hs, -⟩ := h
    exact hs.1
  case done => exact h.1.1

theorem Sync.At.nothing_saved (h : s.At src dst contents read) (hr : s.pc.receiving = true) :
    s.saved = [] := by
  cases hpc : s.pc <;> simp only [Sync.At, hpc] at h
  case count => exact h.2.2
  case record left =>
    obtain ⟨todo, -, -, -, hsaved, -⟩ := h
    exact hsaved
  all_goals simp [hpc, SyncPc.receiving] at hr

/-- Once everything is read all files are saved. -/
theorem Sync.At.drained (h : s.At src dst contents read) (hp : s.pending = []) :
    s.pc = .done ∧ s.saved = copies src dst read (files contents) := by
  cases hpc : s.pc <;> simp only [Sync.At, hpc] at h
  case count =>
    have hlength := congrArg List.length (h.1.symm.trans hp)
    simp [sendDirectoryContents] at hlength
  case record left =>
    obtain ⟨todo, -, -, hne, -, hpending⟩ := h
    cases todo with
    | nil => exact (hne rfl).elim
    | cons e todo =>
      have hlength := congrArg List.length (hpending.symm.trans hp)
      simp [filePathSize, maxPathLength] at hlength
  case fileSize newPath later =>
    obtain ⟨e, todo, -, -, -, hpending⟩ := h
    have hlength := congrArg List.length (hpending.symm.trans hp)
    simp [fileBytes] at hlength
  case fileData newPath later fileSize written =>
    obtain ⟨e, todo, rest, -, -, -, -, -, hne, hpending⟩ := h
    exact absurd (List.append_eq_nil_iff.mp (hpending.symm.trans hp)).1 hne
  case done =>
    obtain ⟨-, finished, hfiles, hsaved⟩ := h.1
    rw [List.append_nil] at hfiles
    exact ⟨rfl, by rw [hsaved, hfiles]⟩

/-- The file that is opened next is the first that is not saved. -/
theorem Sync.At.opening {newPath : Path} {later : List Path} (h : s.At src dst contents read)
    (hpc : s.pc = .fileSize newPath later) :
    ∃ e, (files contents)[s.saved.length]? = some e ∧ newPath = destinationPath src dst e := by
  simp only [Sync.At, hpc] at h
  obtain ⟨e, todo, ⟨-, finished, hfiles, hsaved⟩, hpath, -⟩ := h
  refine ⟨e, ?_, hpath⟩
  rw [hsaved, hfiles, copies, List.length_map, List.getElem?_append_right le_rfl, Nat.sub_self]
  rfl

/-- A step saves nothing or one file, and while the list is received nothing. -/
theorem sync_saves (hn : Sync.next src dst s a = some t) :
    t.saved = s.saved ∨ (s.pc.receiving = false ∧ ∃ copy, t.saved = s.saved ++ [copy]) := by
  cases hpc : s.pc with
  | count =>
    simp only [Sync.next, hpc] at hn
    obtain ⟨r, -, rfl⟩ := Option.map_eq_some_iff.mp hn
    split <;> exact .inl rfl
  | record left =>
    simp only [Sync.next, hpc] at hn
    obtain ⟨r, -, rfl⟩ := Option.map_eq_some_iff.mp hn
    exact .inl rfl
  | fileSize newPath later =>
    simp only [Sync.next, hpc] at hn
    obtain ⟨r, -, rfl⟩ := Option.map_eq_some_iff.mp hn
    split
    · split
      · exact .inl rfl
      · exact .inr ⟨rfl, _, rfl⟩
    · exact .inl rfl
  | fileData newPath later fileSize written =>
    simp only [Sync.next, hpc] at hn
    obtain ⟨r, -, rfl⟩ := Option.map_eq_some_iff.mp hn
    split
    · exact .inl rfl
    · exact .inr ⟨rfl, _, rfl⟩
  | done => simp [Sync.next, hpc] at hn
  | exited => simp [Sync.next, hpc] at hn

/-- The list is not received a second time. -/
theorem sync_receiving (hn : Sync.next src dst s a = some t) (hr : s.pc.receiving = false) :
    t.pc.receiving = false := by
  cases hpc : s.pc with
  | count => simp [hpc, SyncPc.receiving] at hr
  | record left => simp [hpc, SyncPc.receiving] at hr
  | fileSize newPath later =>
    simp only [Sync.next, hpc] at hn
    obtain ⟨r, -, rfl⟩ := Option.map_eq_some_iff.mp hn
    split
    · split
      · rfl
      · cases later <;> rfl
    · rfl
  | fileData newPath later fileSize written =>
    simp only [Sync.next, hpc] at hn
    obtain ⟨r, -, rfl⟩ := Option.map_eq_some_iff.mp hn
    split
    · rfl
    · cases later <;> rfl
  | done => simp [Sync.next, hpc] at hn
  | exited => simp [Sync.next, hpc] at hn

end Reads

/-! ### The disk -/

section Disk
variable {server client disk : FileSystem} {cwd p q r : List FileName} {src dst : Path}
  {keys written : List (List FileName)}

/-- The files among the entries `keys` of the server, as `sendFile` takes them. -/
def fileKeys (server : FileSystem) (p : List FileName) (keys : List (List FileName)) :
    List (List FileName) :=
  keys.filter fun r => isFile (server.node (p ++ r))

/-- The tree of the server, with contents in the files `written`. -/
structure Filled (server : FileSystem) (p : List FileName) (client : FileSystem)
    (q : List FileName) (written : List (List FileName)) (disk : FileSystem) : Prop where
  beneath : ∀ r, disk.node (q ++ r) =
    if r ∈ written then server.node (p ++ r) else (server.node (p ++ r)).map emptied
  outside : ∀ s, ¬ q <+: s → disk.node s = client.node s

theorem Mirrored.filled {m : Mirror} (h : Mirrored server p client q dst keys m) :
    Filled server p client q [] m.fs where
  beneath r := by
    rw [if_neg List.not_mem_nil, h.beneath]
  outside := h.outside

theorem Filled.dir (h : Filled server p client q written disk)
    (hdir : server.node (p ++ r) = some .dir) : disk.node (q ++ r) = some .dir := by
  rw [h.beneath, hdir]
  split <;> rfl

theorem Filled.dirs (h : Filled server p client q written disk)
    (hp : server.node p = some .dir) (hempty : client.children q = []) (s : List FileName)
    (hs : client.node s = some .dir) : disk.node s = some .dir := by
  by_cases hbelow : q <+: s
  · obtain ⟨r, rfl⟩ := hbelow
    by_cases hr : r = []
    · subst hr
      exact h.dir (by rw [List.append_nil, hp])
    · rw [client.node_of_empty hempty hr] at hs
      contradiction
  · rw [h.outside s hbelow, hs]

/-- A file of the server is there to be written. -/
theorem Filled.save (h : Filled server p client q written disk)
    (hp : server.node p = some .dir) (hdst : resolve client cwd dst = .ok q)
    (hempty : client.children q = []) (hr : isFile (server.node (p ++ r)) = true)
    (content : Bytes) : ∃ fs, writeFile disk cwd (dst ++ relativePath r) content = .ok fs ∧
      ∀ s, fs.node s = if s = q ++ r then some (.file content) else disk.node s := by
  obtain ⟨old, hold⟩ := isFile_iff.mp hr
  have hne : r ≠ [] := by
    rintro rfl
    rw [List.append_nil, hp] at hold
    simp at hold
  have hparent : server.node (p ++ r.dropLast) = some .dir := by
    have habove := server.node_dropLast (p := p ++ r) (by simp [hold])
    rwa [List.dropLast_append_of_ne_nil hne] at habove
  have hpath : resolve disk cwd (dst ++ relativePath r) = .ok (q ++ r) :=
    resolve_below (resolve_mono (h.dirs hp hempty) hdst) (.inr (h.dir hparent))
  have hfile : disk.node (q ++ r) ≠ some .dir := by
    rw [h.beneath, hold]
    split <;> simp [emptied]
  have hdir : disk.node (q ++ r).dropLast = some .dir := by
    rw [List.dropLast_append_of_ne_nil hne]
    exact h.dir hparent
  obtain ⟨fs, hsave, hnode⟩ := disk.save_file content hfile hdir
  refine ⟨fs, ?_, hnode⟩
  simp only [writeFile, hpath, Except.bind, hsave]

theorem Filled.opened {fs : FileSystem} (h : Filled server p client q written disk)
    (hr : isFile (server.node (p ++ r)) = true) (hnew : r ∉ written)
    (hfs : ∀ s, fs.node s = if s = q ++ r then some (.file []) else disk.node s) :
    Filled server p client q written fs where
  beneath s := by
    rw [hfs]
    by_cases hs : s = r
    · obtain ⟨old, hold⟩ := isFile_iff.mp hr
      rw [if_pos (by rw [hs]), hs, if_neg hnew, hold]
      rfl
    · rw [if_neg fun heq => hs (List.append_cancel_left heq), h.beneath]
  outside s hs := by
    rw [hfs, if_neg fun heq => hs ⟨r, heq.symm⟩, h.outside s hs]

theorem Filled.closed {fs : FileSystem} {content : Bytes}
    (h : Filled server p client q written disk)
    (hr : server.node (p ++ r) = some (.file content))
    (hfs : ∀ s, fs.node s = if s = q ++ r then some (.file content) else disk.node s) :
    Filled server p client q (written ++ [r]) fs where
  beneath s := by
    rw [hfs]
    by_cases hs : s = r
    · simp [hs, hr]
    · rw [if_neg fun heq => hs (List.append_cancel_left heq), h.beneath]
      simp [hs]
  outside s hs := by
    rw [hfs, if_neg fun heq => hs ⟨r, heq.symm⟩, h.outside s hs]

theorem files_entries : files (keys.map (entryAt server p src)) =
    (fileKeys server p keys).map (entryAt server p src) := by
  rw [files, fileKeys, List.filter_map]
  congr 1
  refine List.filter_congr fun r _ => Bool.eq_iff_iff.mpr ?_
  rw [Function.comp_apply, decide_eq_true_iff, entryAt, ofPath_isFile]

end Disk

/-! ### Both together -/

/-- The directory of the client: there, empty, and with room for the server's paths. -/
structure Cleared (directoryPath : Path) (cwd q : List FileName) (server : FileSystem)
    (p : List FileName) (client : FileSystem) : Prop where
  dest : resolve client cwd directoryPath = .ok q
  dir : client.node q = some .dir
  empty : client.children q = []
  fits : FitsBelow server p directoryPath

/-- The disk of a client that is at `s` with the list `keys`. -/
def Sync.Shows (server : FileSystem) (p : List FileName) (keys : List (List FileName))
    (client : FileSystem) (q : List FileName) (s : Sync) (disk : FileSystem) : Prop :=
  if s.pc.receiving then disk = client
  else Filled server p client q ((fileKeys server p keys).take s.saved.length) disk

section Both
variable {basePath dst : Path} {serverCwd cwd p q : List FileName} {keys : List (List FileName)}
  {h : Host} {client disk : FileSystem} {s t : Sync} {a : SyncRead}

theorem Synced.mirrored (hs : Synced basePath serverCwd p keys h)
    (hc : Cleared dst cwd q h.fs p client) : Mirrored h.fs p client q dst keys
      (createSameDirectoryStructure cwd basePath dst h.contents (.init client)) := by
  have hstart : Copied h.fs p client q dst [] (.init client) :=
    ⟨rfl, fun r hr => by simp [Mirror.init, client.node_of_empty hc.empty hr], fun s _ => rfl, rfl⟩
  have hcopied := hstart.loop hc.dest hc.dir hc.empty (by simpa using hs.lists) hs.fits hc.fits
  rw [List.nil_append] at hcopied
  rw [hs.contents]
  exact hcopied.mirrored hs.lists hs.dir hc.dir

/-- The files in the order in which they are sent. -/
theorem Synced.file (hs : Synced basePath serverCwd p keys h)
    (hc : Cleared dst cwd q h.fs p client) {e : FilePath} {i : ℕ}
    (he : (files h.contents)[i]? = some e) : ∃ r content, (fileKeys h.fs p keys)[i]? = some r ∧
      h.fs.node (p ++ r) = some (.file content) ∧
      destinationPath basePath dst e = dst ++ relativePath r ∧
      fileContent h.fs serverCwd e = content := by
  rw [hs.contents, files_entries, List.getElem?_map] at he
  obtain ⟨r, hr, rfl⟩ := Option.map_eq_some_iff.mp he
  obtain ⟨hmem, hfile⟩ := List.mem_filter.mp (List.mem_of_getElem? hr)
  obtain ⟨hne, hnode⟩ := (hs.lists.mem r).mp hmem
  obtain ⟨content, hcontent⟩ := isFile_iff.mp hfile
  refine ⟨r, content, hr, hcontent, ?_, ?_⟩
  · exact destinationPath_below _ hne (hs.fits r hne hnode) (hc.fits r hne hnode)
  · rw [fileContent, hs.stat_entry hmem, hcontent]

theorem Sync.Shows.fopen (hshows : s.Shows h.fs p keys client q disk)
    (hs : Synced basePath serverCwd p keys h) (hc : Cleared dst cwd q h.fs p client)
    (hat : s.At basePath dst h.contents (fileContent h.fs serverCwd)) :
    ∃ opened, s.fopen cwd disk = some opened ∧ s.Shows h.fs p keys client q opened := by
  cases hpc : s.pc with
  | fileSize newPath later =>
    obtain ⟨e, he, hpath⟩ := hat.opening hpc
    obtain ⟨r, content, hr, hcontent, hdest, -⟩ := hs.file hc he
    have hfilled : Filled h.fs p client q ((fileKeys h.fs p keys).take s.saved.length) disk := by
      simpa [Sync.Shows, hpc, SyncPc.receiving] using hshows
    have hfile : isFile (h.fs.node (p ++ r)) = true := by simp [hcontent, isFile]
    obtain ⟨fs, hwrite, hnode⟩ := hfilled.save hs.dir hc.dest hc.empty hfile []
    have hnew : r ∉ (fileKeys h.fs p keys).take s.saved.length := by
      have hnodup : (fileKeys h.fs p keys).Nodup := hs.lists.nodup.filter _
      intro hmem
      obtain ⟨j, hj, hget⟩ := List.mem_take_iff_getElem.mp hmem
      obtain ⟨hi, hri⟩ := List.getElem?_eq_some_iff.mp hr
      have hsame := hnodup.getElem_inj_iff.mp (hget.trans hri.symm)
      omega
    refine ⟨fs, ?_, ?_⟩
    · simp only [Sync.fopen, hpc, hpath, hdest, hwrite, Except.toOption]
    · simpa [Sync.Shows, hpc, SyncPc.receiving] using hfilled.opened hfile hnew hnode
  | count | record left | fileData newPath later fileSize written | done | exited =>
    exact ⟨disk, by simp [Sync.fopen, hpc], hshows⟩

theorem Sync.Shows.touch (hshows : s.Shows h.fs p keys client q disk)
    (hs : Synced basePath serverCwd p keys h) (hc : Cleared dst cwd q h.fs p client)
    (hat : s.At basePath dst h.contents (fileContent h.fs serverCwd))
    (hat' : t.At basePath dst h.contents (fileContent h.fs serverCwd))
    (hn : Sync.next basePath dst s a = some t) :
    t.Shows h.fs p keys client q (s.touch cwd basePath dst t disk) := by
  cases hr : s.pc.receiving with
  | true =>
    have hclient : disk = client := by simpa [Sync.Shows, hr] using hshows
    cases hr' : t.pc.receiving with
    | true => simpa [Sync.Shows, Sync.touch, hr, hr'] using hclient
    | false =>
      have hnothing : t.saved = [] := by
        rcases sync_saves hn with hsame | ⟨hno, -⟩
        · rw [hsame, hat.nothing_saved hr]
        · simp [hr] at hno
      have hfilled := (hs.mirrored hc).filled
      simp only [Sync.Shows, Sync.touch, hr, hr', hat'.received hr', hnothing, hclient]
      simpa using hfilled
  | false =>
    have hr' := sync_receiving hn hr
    have hfilled : Filled h.fs p client q ((fileKeys h.fs p keys).take s.saved.length) disk := by
      simpa [Sync.Shows, hr] using hshows
    rcases sync_saves hn with hsame | ⟨-, copy, hmore⟩
    · simpa [Sync.Shows, Sync.touch, hr, hr', hsame] using hfilled
    · obtain ⟨later, hcopies⟩ := hat'.saved
      have hcopy : (copies basePath dst (fileContent h.fs serverCwd)
          (files h.contents))[s.saved.length]? = some copy := by
        rw [← hcopies, hmore, List.append_assoc, List.getElem?_append_right le_rfl, Nat.sub_self]
        rfl
      rw [copies, List.getElem?_map] at hcopy
      obtain ⟨e, he, rfl⟩ := Option.map_eq_some_iff.mp hcopy
      obtain ⟨r, content, hkey, hcontent, hdest, hread⟩ := hs.file hc he
      have hfile : isFile (h.fs.node (p ++ r)) = true := by simp [hcontent, isFile]
      obtain ⟨fs, hwrite, hnode⟩ := hfilled.save hs.dir hc.dest hc.empty hfile content
      have hclosed := hfilled.closed hcontent hnode
      have htake : (fileKeys h.fs p keys).take (s.saved.length + 1) =
          (fileKeys h.fs p keys).take s.saved.length ++ [r] := by
        rw [List.take_add_one, hkey]
        rfl
      have hdrop : t.saved.drop s.saved.length = [(dst ++ relativePath r, content)] := by
        rw [hmore, List.drop_left, hdest, hread]
      simp only [Sync.Shows, Sync.touch, hr, hr', hdrop, Bool.false_eq_true, if_false,
        List.foldl_cons, List.foldl_nil, saveCopy, hwrite, Except.toOption, Option.getD_some]
      rwa [hmore, List.length_append, List.length_singleton, htake]

end Both

/-! ### Whole runs -/

/-- Where the client is in the stream, and what its disk holds. -/
def Startup.At (basePath dst : Path) (serverCwd p : List FileName) (keys : List (List FileName))
    (h : Host) (client : FileSystem) (q : List FileName) (x : Startup) : Prop :=
  let sent := sendDirectoryContents h.contents ++
    sendFile (fileContent h.fs serverCwd) h.contents
  match x.greeting with
  | .pathLength => x.sync = ⟨encodeInt 4 basePath.length ++ (basePath ++ sent), [], [], .count⟩ ∧
      x.disk = client
  | .path pathLength => pathLength = basePath.length ∧
      x.sync = ⟨basePath ++ sent, [], [], .count⟩ ∧ x.disk = client
  | .greeted src => src = basePath ∧
      x.sync.At basePath dst h.contents (fileContent h.fs serverCwd) ∧
      x.sync.Shows h.fs p keys client q x.disk

section Runs
variable {basePath dst : Path} {serverCwd cwd p q : List FileName} {keys : List (List FileName)}
  {dirSize : ℕ} {h : Host} {client : FileSystem} {x y : Startup} {a : StartupRead}

theorem Startup.At.pathLength (hs : Synced basePath serverCwd p keys h)
    (hg : x.greeting = .pathLength) (hat : x.At basePath dst serverCwd p keys h client q)
    (hw : x.Whole a) (hn : x.next dst cwd a = some y) :
    y.At basePath dst serverCwd p keys h client q := by
  have hshort := hs.short
  simp only [Startup.At, hg] at hat
  simp only [Startup.Whole, hg] at hw
  obtain ⟨hsync, hdisk⟩ := hat
  have hread (later : Bytes) : recvInt 4 4 a.read.old (encodeInt 4 basePath.length ++ later) =
      some ((basePath.length : ℤ), later) :=
    recvInt_of_fits (by decide) _ _ (by omega) (by omega)
  simp only [Startup.next, hg, hw, hsync, hread, Option.map_some, Option.some.injEq] at hn
  subst hn
  exact ⟨rfl, rfl, hdisk⟩

theorem Startup.At.path {pathLength : ℤ} (hs : Synced basePath serverCwd p keys h)
    (hg : x.greeting = .path pathLength) (hat : x.At basePath dst serverCwd p keys h client q)
    (hw : x.Whole a) (hn : x.next dst cwd a = some y) :
    y.At basePath dst serverCwd p keys h client q := by
  simp only [Startup.At, hg] at hat
  simp only [Startup.Whole, hg] at hw
  obtain ⟨rfl, hsync, hdisk⟩ := hat
  obtain ⟨hlength, hzero⟩ := hw
  obtain ⟨heap, hheap⟩ : ∃ heap, a.heap = 0 :: heap := List.head?_eq_some_iff.mp hzero
  have hn' : a.read.n = basePath.length := by omega
  have hread (later : Bytes) : recv basePath.length basePath.length (basePath ++ later) =
      some (basePath, later) := recv_whole (resolve_ne_nil hs.base) le_rfl later
  simp only [Startup.next, hg, hn', hsync, Int.toNat_natCast, hread, Option.map_some,
    Option.some.injEq] at hn
  subst hn
  refine ⟨?_, ⟨rfl, rfl, rfl⟩, hdisk⟩
  rw [hheap, cstr_append hs.string]

theorem Startup.At.greeted {src : Path} (hs : Synced basePath serverCwd p keys h)
    (hc : Cleared dst cwd q h.fs p client) (hg : x.greeting = .greeted src)
    (hat : x.At basePath dst serverCwd p keys h client q) (hw : x.Whole a)
    (hn : x.next dst cwd a = some y) : y.At basePath dst serverCwd p keys h client q := by
  simp only [Startup.At, hg] at hat
  simp only [Startup.Whole, hg] at hw
  obtain ⟨rfl, hsync, hshows⟩ := hat
  obtain ⟨opened, hopened, hshows'⟩ := hshows.fopen hs hc hsync
  simp only [Startup.next, hg, hopened, Option.isSome_some, Option.getD_some] at hn
  obtain ⟨t, ht, rfl⟩ := Option.map_eq_some_iff.mp hn
  have hsmall : ∀ e ∈ files h.contents, (fileContent h.fs serverCwd e).length < 2 ^ 31 := by
    intro e he
    obtain ⟨i, hi⟩ := List.mem_iff_getElem?.mp he
    obtain ⟨r, content, -, hcontent, -, hread⟩ := hs.file hc hi
    exact hread ▸ hs.small r content hcontent
  have hat' := (sync_inductive hs.count hsmall).keep _ _ _ hsync hw ht
  simp only [Startup.At, true_and]
  exact ⟨hat', hshows'.touch hs hc hsync hat' ht⟩

theorem startup_inductive (hs : Synced basePath serverCwd p keys h)
    (hc : Cleared dst cwd q h.fs p client) :
    (startup basePath dst serverCwd cwd dirSize h client).Inductive Startup.Whole
      (Startup.At basePath dst serverCwd p keys h client q) where
  base x hx := by
    obtain rfl := hx
    have hserved : Served basePath serverCwd dirSize h := hs.served
    simp only [Startup.At, Host.stream, hserved.bytes, and_self]
  keep x a y hat hw hn := by
    cases hg : x.greeting with
    | pathLength => exact hat.pathLength hs hg hw hn
    | path pathLength => exact hat.path hs hg hw hn
    | greeted src => exact hat.greeted hs hc hg hw hn

theorem sync_fs {src : Path} {s : Sync} {a : SyncRead} (b : Bool) :
    (Sync.next src dst s { a with fs := b }).isSome = (Sync.next src dst s a).isSome := by
  cases hpc : s.pc <;> simp [Sync.next, hpc]

/-- As long as there is something to read, a read can go on. -/
theorem Startup.At.continues (hs : Synced basePath serverCwd p keys h)
    (hat : x.At basePath dst serverCwd p keys h client q) (hp : x.sync.pending ≠ []) :
    ∃ a y, x.Whole a ∧ x.next dst cwd a = some y := by
  suffices hsome : ∃ a, x.Whole a ∧ (x.next dst cwd a).isSome = true by
    obtain ⟨a, ha, hn⟩ := hsome
    obtain ⟨y, hy⟩ := Option.isSome_iff_exists.mp hn
    exact ⟨a, y, ha, hy⟩
  cases hg : x.greeting with
  | pathLength =>
    simp only [Startup.At, hg] at hat
    have hlen : 4 ≤ x.sync.pending.length := by simp [hat.1]
    refine ⟨⟨⟨4, 0, .ofPath [] false, true⟩, []⟩, by simp [Startup.Whole, hg], ?_⟩
    simp only [Startup.next, hg, Option.isSome_map]
    exact recvInt_isSome (by decide) hlen
  | path pathLength =>
    simp only [Startup.At, hg] at hat
    obtain ⟨rfl, hsync, -⟩ := hat
    have hpos := List.length_pos_iff.mpr (resolve_ne_nil hs.base)
    refine ⟨⟨⟨basePath.length, 0, .ofPath [] false, true⟩, [0]⟩,
      by simp [Startup.Whole, hg], ?_⟩
    simp only [Startup.next, hg, Option.isSome_map, Int.toNat_natCast]
    exact recv_isSome hpos le_rfl (by simp [hsync])
  | greeted src =>
    simp only [Startup.At, hg] at hat
    obtain ⟨rfl, hsync, -⟩ := hat
    obtain ⟨a, t, hw, hn⟩ := at_continues hsync hp
    refine ⟨⟨a, []⟩, ?_, ?_⟩
    · simp only [Startup.Whole, hg]
      cases hpc : x.sync.pc <;> simp only [Sync.Whole, hpc] at hw ⊢ <;> simp_all
    · simp only [Startup.next, hg, Option.isSome_map, sync_fs, hn, Option.isSome_some]

theorem Startup.At.outside (hat : x.At basePath dst serverCwd p keys h client q)
    (s : List FileName) (hs : ¬ q <+: s) : x.disk.node s = client.node s := by
  cases hg : x.greeting with
  | pathLength =>
    simp only [Startup.At, hg] at hat
    rw [hat.2]
  | path pathLength =>
    simp only [Startup.At, hg] at hat
    rw [hat.2.2]
  | greeted src =>
    simp only [Startup.At, hg] at hat
    have hshows := hat.2.2
    unfold Sync.Shows at hshows
    split at hshows
    · rw [hshows]
    · exact hshows.outside s hs

theorem Filled.whole {disk : FileSystem} (hs : Synced basePath serverCwd p keys h)
    (hfilled : Filled h.fs p client q (fileKeys h.fs p keys) disk) (r : List FileName) :
    disk.node (q ++ r) = h.fs.node (p ++ r) := by
  rw [hfilled.beneath]
  split
  · rfl
  · next hno =>
    cases hnode : h.fs.node (p ++ r) with
    | none => rfl
    | some node =>
      cases node with
      | dir => rfl
      | file content =>
        have hne : r ≠ [] := by
          rintro rfl
          rw [List.append_nil, hs.dir] at hnode
          simp at hnode
        have hthere : h.fs.node (p ++ r) ≠ none := by simp [hnode]
        have hfile : isFile (h.fs.node (p ++ r)) = true := by simp [hnode, isFile]
        exact absurd (List.mem_filter.mpr ⟨(hs.lists.mem r).mpr ⟨hne, hthere⟩, hfile⟩) hno

theorem Startup.At.copied (hs : Synced basePath serverCwd p keys h)
    (hat : x.At basePath dst serverCwd p keys h client q) (hp : x.sync.pending = []) :
    x.sync.pc = .done ∧ ∀ r, x.disk.node (q ++ r) = h.fs.node (p ++ r) := by
  cases hg : x.greeting with
  | pathLength =>
    simp only [Startup.At, hg] at hat
    have hlength := congrArg List.length hp
    simp [hat.1] at hlength
  | path pathLength =>
    simp only [Startup.At, hg] at hat
    have hlength := congrArg List.length hp
    simp [hat.2.1, sendDirectoryContents] at hlength
  | greeted src =>
    simp only [Startup.At, hg] at hat
    obtain ⟨-, hsync, hshows⟩ := hat
    obtain ⟨hdone, hsaved⟩ := hsync.drained hp
    have hall : (fileKeys h.fs p keys).take x.sync.saved.length = fileKeys h.fs p keys := by
      rw [hsaved, copies, hs.contents, files_entries]
      exact List.take_of_length_le (by simp)
    have hfilled : Filled h.fs p client q (fileKeys h.fs p keys) x.disk := by
      rw [← hall]
      simpa [Sync.Shows, hdone, SyncPc.receiving] using hshows
    exact ⟨hdone, hfilled.whole hs⟩

/-- The watch loop can begin: its connection is empty, and the server has the files that the
first scan of the client finds. -/
theorem Startup.At.watched {c : Client} (hs : Synced basePath serverCwd p keys h)
    (hat : x.At basePath dst serverCwd p keys h client q) (hp : x.sync.pending = [])
    (hc : (watchFew dst).start c) (hsuits : ∀ f ∈ c.tree.files dst, Suits dst basePath f)
    (htree : ∀ r, fileAt x.disk (q ++ r) = fileContents dst c.tree (relativePath r)) :
    (propagation dst basePath serverCwd p).start ⟨c, ⟨x.sync.pending, 0, .top, []⟩, h.fs⟩ where
  client := hc
  suits := hsuits
  pending := hp
  pc := rfl
  ops := rfl
  disk := by
    refine ⟨hs.base, hs.dir, fun r => ?_⟩
    rw [← htree, fileAt, fileAt, (hat.copied hs hp).2]

end Runs

/-- A client that connects while the messages of the others keep what the server listed
gets the server's directory: nothing beside its own directory changes, it can always go on,
and when it has read everything the two directories hold the same. -/
theorem first_copy {basePath dst : Path} {serverCwd cwd p q : List FileName} {dirSize : ℕ}
    {h₀ h : Host} {client : FileSystem} {x : Startup}
    (hstart : (host basePath serverCwd).start h₀) (hbegins : Begins basePath serverCwd h₀)
    (hrun : (host basePath serverCwd).Path₀ (Keeps basePath serverCwd) h₀ h)
    (hbase : resolve h.fs serverCwd basePath = .ok p) (hc : Cleared dst cwd q h.fs p client)
    (hx : (startup basePath dst serverCwd cwd dirSize h client).Reaches Startup.Whole x) :
    (∀ s, ¬ q <+: s → x.disk.node s = client.node s) ∧
    (x.sync.pending ≠ [] → ∃ a y, x.Whole a ∧ x.next dst cwd a = some y) ∧
    (x.sync.pending = [] →
      x.sync.pc = .done ∧ ∀ r, x.disk.node (q ++ r) = h.fs.node (p ++ r)) := by
  obtain ⟨p', keys, hsynced⟩ := hbegins.synced hstart
  have hs : Synced basePath serverCwd p' keys h :=
    hrun.keep hsynced fun _ _ _ h hk hn => h.keep hk hn
  obtain rfl : p' = p := Except.ok.inj (hs.base.symm.trans hbase)
  have hat := (startup_inductive hs hc).holds hx
  exact ⟨hat.outside, hat.continues hs, hat.copied hs⟩

def StartupRead.ofLength (n : ℕ) : StartupRead := ⟨.ofLength n, [0]⟩

/-- The first client rewrites the file, then the second connects. -/
theorem rewritten_copied : ∃ x, (startup (utf8 "/s") (utf8 "/s") [] [] 4096 rewritten
    oneFolder).Reaches Startup.Whole x ∧ x.disk.node [nameS, nameA] = some (.file [2]) := by
  have hkeeps : Keeps (utf8 "/s") [] aloneBelow updateA :=
    ⟨[nameS], [nameA], by decide, by decide, by decide, by decide, by decide⟩
  have hnext : (host (utf8 "/s") []).next aloneBelow updateA = some rewritten := by
    rw [host, aloneBelow, rewritten, Option.map_eq_some_iff]
    exact ⟨_, (Option.some_get _).symm, rfl⟩
  have hcleared : Cleared (utf8 "/s") [] [nameS] rewritten.fs [nameS] oneFolder :=
    ⟨by decide, by decide, by decide, by decide⟩
  have hrun : (((startup (utf8 "/s") (utf8 "/s") [] [] 4096 rewritten oneFolder).guarded
      Startup.Whole).run ⟨.pathLength, ⟨rewritten.stream (utf8 "/s") [] 4096, [], [], .count⟩,
        oneFolder⟩ ([4, 2, 4, 1028, 8, 1].map StartupRead.ofLength)).map
      (fun x => x.sync.pending) = some [] := by decide +kernel
  obtain ⟨x, hx, hempty⟩ := Option.map_eq_some_iff.mp hrun
  have hreaches := Machine.Reaches.run (.start rfl) _ hx
  have hcopy := first_copy aloneBelow_start aloneBelow_begins (.single ⟨updateA, hkeeps, hnext⟩)
    (by decide) hcleared hreaches
  refine ⟨x, hreaches, (hcopy.2.2 hempty).2 [nameA] |>.trans ?_⟩
  decide

end AdvancedCProjects.Bibak
