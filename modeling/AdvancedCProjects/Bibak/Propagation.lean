import AdvancedCProjects.Bibak.Contents
import AdvancedCProjects.Bibak.Folders

/-!
# From the client's files to the server's disk (BibakBOXClient.c:122-448, BibakBOXServer.c:223-465)

The watch loop of a client, its connection, the worker that serves it and the disk below
`base_path`, as one machine. The messages are on the connection as soon as they are sent,
and what is in a file is written when its last byte has come. What stands in a new file at
the rescan after its CREATE is never sent, so it has to be empty then (`RescanTimely`).
-/

namespace AdvancedCProjects.Bibak
open Base

def fileAt (fs : FileSystem) (q : List FileName) : Option Bytes :=
  match fs.node q with
  | some (.file content) => some content
  | _ => none

def Op.applyContent (server : Contents) : Op → Contents
  | .create path => Function.update server path (some [])
  | .delete path => Function.update server path none
  | .update path data => Function.update server path (some data)

/-- The base directory is there, and the files below it are those of `server`. -/
structure Holds (basePath : Path) (cwd p : List FileName) (fs : FileSystem) (server : Contents) :
    Prop where
  names : resolve fs cwd basePath = .ok p
  dir : fs.node p = some .dir
  files : ∀ r, fileAt fs (p ++ r) = server (relativePath r)

/-- A file with a dot in its name is created, or a file is replaced. -/
def Op.Storable : Op → Prop
  | .create path => ∃ r n, path = relativePath (r ++ [n]) ∧ dot ∈ n.val
  | .delete _ => False
  | .update path _ => ∃ r n, path = relativePath (r ++ [n])

/-! ### What an operation does to the files -/

section Files
variable {basePath path : Path} {cwd p r : List FileName} {fs fs' : FileSystem} {server : Contents}
  {n : FileName} {data : Bytes}

theorem fileAt_congr {q : List FileName} (h : fs'.node q = fs.node q) :
    fileAt fs' q = fileAt fs q := by
  rw [fileAt, fileAt, h]

theorem Holds.set {content : Bytes} (h : Holds basePath cwd p fs server)
    (hdirs : ∀ q, fs.node q = some .dir → fs'.node q = some .dir)
    (hself : fs'.node (p ++ r) = some (.file content))
    (hothers : ∀ q, q ≠ p ++ r → fileAt fs' q = fileAt fs q) :
    Holds basePath cwd p fs' (Function.update server (relativePath r) (some content)) where
  names := resolve_mono hdirs h.names
  dir := hdirs p h.dir
  files s := by
    by_cases hs : s = r
    · subst hs
      rw [Function.update_self, fileAt, hself]
    · rw [Function.update_of_ne (relativePath_injective.ne hs),
        hothers _ fun heq => hs (List.append_cancel_left heq), h.files]

/-- `create_folder_structure` makes directories and nothing else. -/
theorem createFolderStructure_files (h : createFolderStructure cwd fs path = some fs') :
    (∀ q, fs.node q = some .dir → fs'.node q = some .dir) ∧
      ∀ q, fileAt fs' q = fileAt fs q := by
  have hno : NoFile fs (Component.places [] (components path)) := by
    by_contra hfile
    rw [createFolderStructure_file hfile] at h
    contradiction
  obtain ⟨made, hmade, hwith, -⟩ := createFolderStructure_made cwd hno
  obtain rfl := Option.some.inj (h.symm.trans hmade)
  constructor
  · intro q hq
    rw [hwith q]
    split
    · rfl
    · exact hq
  · intro q
    by_cases hnew : fs.node q = none ∧ q ∈ Component.places [] (components path)
    · rw [fileAt, fileAt, hwith q, if_pos hnew, hnew.1]
    · exact fileAt_congr (by rw [hwith q, if_neg hnew])

theorem Holds.create (h : Holds basePath cwd p fs server) (hdot : dot ∈ n.val)
    (hcall : handleCreate basePath cwd fs (relativePath (r ++ [n])) = some fs') :
    Holds basePath cwd p fs' (Function.update server (relativePath (r ++ [n])) (some [])) := by
  rw [handleCreate_file hdot] at hcall
  split at hcall
  · contradiction
  · obtain ⟨made, hmade, hwrite⟩ := Option.bind_eq_some_iff.mp hcall
    obtain ⟨hdirs, hfiles⟩ := createFolderStructure_files hmade
    obtain ⟨hno, hnode⟩ := made.save_ok
      (call_below (resolve_mono hdirs h.names) (orExit_some hwrite))
    refine h.set (fun q hq => ?_) (by rw [hnode, if_pos rfl]) fun q hq => ?_
    · have hmadedir := hdirs q hq
      have hne : q ≠ p ++ (r ++ [n]) := fun heq => hno (heq ▸ hmadedir)
      rw [hnode, if_neg hne, hmadedir]
    · rw [← hfiles q]
      exact fileAt_congr (by rw [hnode, if_neg hq])

theorem Holds.update (h : Holds basePath cwd p fs server)
    (hcall : handleUpdate basePath cwd fs (relativePath r) data = some fs') :
    Holds basePath cwd p fs' (Function.update server (relativePath r) (some data)) := by
  obtain ⟨hno, hnode⟩ := handleUpdate_below h.names hcall
  refine h.set (fun q hq => ?_) (by rw [hnode, if_pos rfl]) fun q hq => ?_
  · have hne : q ≠ p ++ r := fun heq => hno (heq ▸ hq)
    rw [hnode, if_neg hne, hq]
  · exact fileAt_congr (by rw [hnode, if_neg hq])

theorem Holds.apply {op : Op} (h : Holds basePath cwd p fs server) (hop : op.Storable)
    (hcall : op.apply basePath cwd fs = some fs') :
    Holds basePath cwd p fs' (op.applyContent server) := by
  cases op with
  | create path =>
    obtain ⟨r, n, rfl, hdot⟩ := hop
    exact h.create hdot hcall
  | delete path => exact hop.elim
  | update path data =>
    obtain ⟨r, n, rfl⟩ := hop
    exact h.update hcall

theorem Holds.carryOut {ops : List Op} (h : Holds basePath cwd p fs server)
    (hops : ∀ op ∈ ops, op.Storable) (hcall : ops.foldlM (Op.apply basePath cwd) fs = some fs') :
    Holds basePath cwd p fs' (ops.foldl Op.applyContent server) := by
  induction ops generalizing fs server with
  | nil =>
    obtain rfl := Option.some.inj hcall
    exact h
  | cons op ops ih =>
    rw [List.foldlM_cons] at hcall
    obtain ⟨made, hmade, hrest⟩ := Option.bind_eq_some_iff.mp hcall
    exact ih (h.apply (hops op List.mem_cons_self) hmade)
      (fun op hop => hops op (List.mem_cons_of_mem _ hop)) hrest

end Files

/-! ### The two programs -/

structure Propagation where
  client : Client
  service : Service
  disk : FileSystem

inductive PropagationStep where
  | client (a : Action)
  | worker (a : Recv)

/-- The worker goes on while the calls on the disk succeed. -/
def Propagation.next (base basePath : Path) (cwd : List FileName) (x : Propagation) :
    PropagationStep → Option Propagation
  | .client a => (Client.next base x.client a).map fun c => { x with
      client := c
      service := { x.service with
        pending := x.service.pending ++
          (c.sent.drop x.client.sent.length).flatMap Message.bytes } }
  | .worker a => (Service.next basePath x.service a).bind fun s =>
      ((s.ops.drop x.service.ops.length).foldlM (Op.apply basePath cwd) x.disk).map fun fs =>
        { x with service := s, disk := fs }

/-- A file that the server can store: its name has a dot, its path fits the buffers and its
size an `int`. -/
structure Suits (base basePath : Path) (f : Inode) : Prop where
  named : ∃ r n, f.path = base ++ relativePath (r ++ [n]) ∧ dot ∈ n.val
  length : f.path.length < maxPathLength
  string : (0 : Byte) ∉ f.path
  fits : ¬ createOverflows (basePath ++ removeBasePath f.path base)
  size : f.content.length < 2 ^ 31

/-- The initial synchronisation has left the same files on both sides. -/
structure Propagation.Start (base basePath : Path) (cwd p : List FileName) (x : Propagation) :
    Prop where
  client : (watchFew base).start x.client
  suits : ∀ f ∈ x.client.tree.files base, Suits base basePath f
  pending : x.service.pending = []
  pc : x.service.pc = .top
  ops : x.service.ops = []
  disk : Holds basePath cwd p x.disk (fileContents base x.client.tree)

def propagation (base basePath : Path) (cwd p : List FileName) :
    Machine Propagation PropagationStep where
  start := Propagation.Start base basePath cwd p
  next := Propagation.next base basePath cwd

def GrowsOneAtATime (base : Path) (s : Client) (a : Action) : Prop :=
  OneAtATime base s a ∧ GrowsTimely base s a

def Orderly (base basePath : Path) (x : Propagation) : PropagationStep → Prop
  | .client a => GrowsOneAtATime base x.client a ∧
      ∀ tree, a = .env tree → ∀ f ∈ tree.files base, Suits base basePath f
  | .worker a => Whole x.service a

/-! ### What the client sends -/

section Sends
variable {base basePath : Path} {s t : Client} {f : Inode} {a : Action}

theorem Suits.named_below (h : Suits base basePath f)
    (hbelow : base ++ removeBasePath f.path base = f.path) :
    ∃ r n, removeBasePath f.path base = relativePath (r ++ [n]) ∧ dot ∈ n.val := by
  obtain ⟨r, n, hpath, hdot⟩ := h.named
  exact ⟨r, n, List.append_cancel_left (hbelow.trans hpath), hdot⟩

theorem Suits.created (h : Suits base basePath f)
    (hbelow : base ++ removeBasePath f.path base = f.path) (file : Option Inode) :
    (createdDetected f.path base file).Ok basePath ∧
      (createdDetected f.path base file).op.Storable :=
  ⟨⟨Event.relativePath_ok base h.length h.string, h.fits⟩, h.named_below hbelow⟩

theorem Suits.updated (h : Suits base basePath f)
    (hbelow : base ++ removeBasePath f.path base = f.path) :
    (updateDetected f.path base (some f)).Ok basePath ∧
      (updateDetected f.path base (some f)).op.Storable := by
  obtain ⟨r, n, hpath, -⟩ := h.named_below hbelow
  exact ⟨⟨Event.relativePath_ok base h.length h.string, getFileSize_of_small h.size, h.size⟩,
    r, n, hpath⟩

/-- Every message tells of a file that is there. -/
theorem Recorded.sends (h : Recorded base s)
    (hsuits : ∀ f ∈ s.tree.files base, Suits base basePath f)
    (hn : (watch base).next s a = some t) :
    ∃ ms, t.sent = s.sent ++ ms ∧ ∀ m ∈ ms, m.Ok basePath ∧ m.op.Storable := by
  have hbelow (f : Inode) (hf : f ∈ s.tree.files base) :
      base ++ removeBasePath f.path base = f.path :=
    filePaths_below h.names _ (List.mem_map_of_mem hf)
  have hnone {t : Client} (hsent : t.sent = s.sent) :
      ∃ ms, t.sent = s.sent ++ ms ∧ ∀ m ∈ ms, m.Ok basePath ∧ m.op.Storable :=
    ⟨[], by rw [hsent, List.append_nil], by simp⟩
  cases watch_move hn with
  | @created p hpc =>
    have hp := h.pcOk
    rw [hpc] at hp
    obtain ⟨f, hf, rfl⟩ := List.mem_map.mp hp
    refine ⟨_, rfl, fun m hm => ?_⟩
    rw [List.mem_singleton.mp hm]
    exact (hsuits f hf).created (hbelow f hf) _
  | @updated i hpc =>
    have hi := h.pcOk
    rw [hpc] at hi
    obtain ⟨f, hf, hpath, -⟩ := h.listed i (Nat.lt_of_lt_of_le hi h.range)
    refine ⟨[updateDetected f.path base (some f)], ?_, fun m hm => ?_⟩
    · simp only [Client.reportUpdate, h.live, hpath, stat_file h.names hf]
    · rw [List.mem_singleton.mp hm]
      exact (hsuits f hf).updated (hbelow f hf)
  | deleted hpc => exact absurd h.pcOk (by simp [hpc, PcOk])
  | checkCreate hpc => exact hnone checkCreate_same.1
  | checkDelete hpc => exact hnone checkDelete_same.1
  | checkUpdate hpc => exact hnone (checkUpdate_same _).1
  | statEntry hpc => exact hnone (statEntry_same _).1
  | env | lost | createRescan | deleteRescan => exact hnone rfl

theorem next_synced (hn : (watch base).next s a = some t) : t.synced = s.synced := by
  cases watch_move hn with
  | checkCreate hpc => exact checkCreate_same.2.synced
  | checkDelete hpc => exact checkDelete_same.2.synced
  | checkUpdate hpc => exact (checkUpdate_same _).2.synced
  | statEntry hpc => exact (statEntry_same _).2.synced
  | updated hpc => exact (reportUpdate_same _).2.synced
  | env | created | deleted | lost | createRescan | deleteRescan => rfl

end Sends

/-! ### What the worker reads -/

section Reads
variable {basePath : Path} {messages ms : List Message} {s t : Service} {a : Recv}

theorem Aligned.send (h : Aligned messages s) (ms : List Message) :
    Aligned (messages ++ ms) { s with pending := s.pending ++ ms.flatMap Message.bytes } := by
  obtain ⟨finished, todo, rfl, hops, hat⟩ := h
  refine ⟨finished, todo ++ ms, List.append_assoc .., hops, ?_⟩
  rcases hat with ⟨hpc, hp⟩ | ⟨m, later, rest, rfl, hne, hu, hp⟩
  · exact .inl ⟨hpc, by rw [hp, List.flatMap_append]⟩
  · exact .inr ⟨m, later ++ ms, rest, rfl, hne, hu,
      by rw [hp, List.flatMap_append, List.append_assoc]⟩

theorem openUpdate_ops (s : Service) (fileSize : ℤ) (fileName : Bytes) (fs : Bool) :
    ∃ ops, (s.openUpdate fileSize fileName fs).ops = s.ops ++ ops := by
  unfold Service.openUpdate
  split
  · split
    · exact ⟨[], (List.append_nil _).symm⟩
    · exact ⟨_, rfl⟩
  · exact ⟨[], (List.append_nil _).symm⟩

theorem makeFile_ops (s : Service) (fileName : Bytes) (fs : Bool) :
    ∃ ops, (Service.makeFile basePath s fileName fs).ops = s.ops ++ ops := by
  unfold Service.makeFile
  split
  · exact ⟨[], (List.append_nil _).symm⟩
  · split
    · exact ⟨_, rfl⟩
    · exact ⟨[], (List.append_nil _).symm⟩

/-- What has been carried out stays so. -/
theorem service_ops (hn : Service.next basePath s a = some t) : ∃ ops, t.ops = s.ops ++ ops := by
  have hsame {u : Service} (h : u.ops = s.ops) : ∃ ops, u.ops = s.ops ++ ops :=
    ⟨[], h.trans (List.append_nil _).symm⟩
  unfold Service.next at hn
  split at hn
  all_goals first
    | contradiction
    | obtain ⟨r, -, rfl⟩ := Option.map_eq_some_iff.mp hn
  all_goals (try dsimp only)
  all_goals repeat' split
  all_goals first
    | exact hsame rfl
    | exact ⟨_, rfl⟩
    | exact openUpdate_ops ..
    | exact makeFile_ops ..

/-- Once nothing is left to read every message has been carried out. -/
theorem Aligned.drained (h : Aligned messages s) (hp : s.pending = []) :
    s.ops = messages.map Message.op := by
  obtain ⟨finished, todo, rfl, hops, hat⟩ := h
  rcases hat with ⟨-, htodo⟩ | ⟨m, later, rest, -, hne, -, hrest⟩
  · obtain rfl : todo = [] := by
      cases todo with
      | nil => rfl
      | cons m later =>
        have hlength := congrArg List.length (htodo.symm.trans hp)
        simp [Message.bytes] at hlength
    rw [List.append_nil]
    exact hops
  · rw [hp] at hrest
    exact absurd (List.append_eq_nil_iff.mp hrest.symm).1 hne

end Reads

/-! ### Whole runs -/

/-- What the client has sent, and how much of it the worker has carried out. -/
structure Conveyed (base basePath : Path) (client : Client) (service : Service) : Prop where
  recorded : Recorded base client
  tracked : Tracked base client
  suits : ∀ f ∈ client.tree.files base, Suits base basePath f
  synced : client.synced.NamesOk
  sendable : ∀ m ∈ client.sent, m.Ok basePath ∧ m.op.Storable
  aligned : Aligned client.sent service

section Steps
variable {base basePath : Path} {s t : Client} {w w' : Service}

theorem conveyed_start (hwatch : (watchFew base).start s)
    (hsuits : ∀ f ∈ s.tree.files base, Suits base basePath f) (hpending : w.pending = [])
    (hpc : w.pc = .top) (hops : w.ops = []) : Conveyed base basePath s w := by
  have hsynced : s.synced = s.tree := hwatch.1.2.2.1
  have hsent : s.sent = [] := hwatch.1.2.2.2.1
  exact ⟨recorded_start hwatch.1, tracked_start hwatch, hsuits, hsynced ▸ hwatch.1.1,
    by simp [hsent], [], [], hsent, hops, .inl ⟨hpc, hpending⟩⟩

theorem Conveyed.client {a : Action} (h : Conveyed base basePath s w)
    (hstep : GrowsOneAtATime base s a)
    (htrees : ∀ tree, a = .env tree → ∀ f ∈ tree.files base, Suits base basePath f)
    (hn : (watch base).next s a = some t) : Conveyed base basePath t { w with
      pending := w.pending ++ (t.sent.drop s.sent.length).flatMap Message.bytes } := by
  obtain ⟨hone, hgrows⟩ := hstep
  obtain ⟨ms, hsent, hms⟩ := h.recorded.sends h.suits hn
  have hnew : t.sent.drop s.sent.length = ms := by rw [hsent, List.drop_left]
  have hsynced := next_synced hn
  constructor
  · exact h.recorded.keep hgrows.1 hgrows.2 hn
  · exact (tracked_inductive base).keep _ _ _ h.tracked hone hn
  · cases a with
    | env tree =>
      cases watch_move hn
      exact htrees tree rfl
    | poll =>
      have htree := (next_tree (by simp [Action.IsLoop]) hn).1
      exact htree ▸ h.suits
    | rescan addr junk =>
      have htree := (next_tree (by simp [Action.IsLoop]) hn).1
      exact htree ▸ h.suits
  · exact hsynced ▸ h.synced
  · intro m hm
    rw [hsent] at hm
    rcases List.mem_append.mp hm with hold | hnew
    · exact h.sendable m hold
    · exact hms m hnew
  · rw [hnew, hsent]
    exact h.aligned.send ms

/-- What the worker carries out has been sent. -/
theorem Conveyed.worker {a : Recv} (h : Conveyed base basePath s w) (ha : Whole w a)
    (hn : Service.next basePath w a = some w') : Conveyed base basePath s w' ∧
      ∃ ops, w'.ops = w.ops ++ ops ∧ ∀ op ∈ ops, ∃ m ∈ s.sent, m.op = op := by
  have haligned : Aligned s.sent w' := h.aligned.step (fun m hm => (h.sendable m hm).1) ha hn
  obtain ⟨ops, hops⟩ := service_ops hn
  refine ⟨⟨h.recorded, h.tracked, h.suits, h.synced, h.sendable, haligned⟩, ops, hops,
    fun op hop => ?_⟩
  obtain ⟨finished, todo, hsplit, hdone, -⟩ := haligned
  have hmem : op ∈ w'.ops := by
    rw [hops]
    exact List.mem_append_right _ hop
  rw [hdone] at hmem
  obtain ⟨m, hm, rfl⟩ := List.mem_map.mp hmem
  refine ⟨m, ?_, rfl⟩
  rw [hsplit]
  exact List.mem_append_left _ hm

end Steps

structure Propagated (base basePath : Path) (cwd p : List FileName) (x : Propagation) : Prop where
  conveyed : Conveyed base basePath x.client x.service
  holds : Holds basePath cwd p x.disk
    (x.service.ops.foldl Op.applyContent (fileContents base x.client.synced))

section Runs
variable {base basePath : Path} {cwd p : List FileName} {x y : Propagation}

theorem Propagated.client {a : Action} (h : Propagated base basePath cwd p x)
    (ha : Orderly base basePath x (.client a))
    (hn : Propagation.next base basePath cwd x (.client a) = some y) :
    Propagated base basePath cwd p y := by
  obtain ⟨c, hc, rfl⟩ := Option.map_eq_some_iff.mp hn
  have hsynced := next_synced hc
  exact ⟨h.conveyed.client ha.1 ha.2 hc, hsynced ▸ h.holds⟩

theorem Propagated.worker {a : Recv} (h : Propagated base basePath cwd p x)
    (ha : Orderly base basePath x (.worker a))
    (hn : Propagation.next base basePath cwd x (.worker a) = some y) :
    Propagated base basePath cwd p y := by
  obtain ⟨s, hs, hn⟩ := Option.bind_eq_some_iff.mp hn
  obtain ⟨fs, hfs, rfl⟩ := Option.map_eq_some_iff.mp hn
  obtain ⟨hconveyed, ops, hops, hsent⟩ := h.conveyed.worker ha hs
  have hstorable (op : Op) (hop : op ∈ ops) : op.Storable := by
    obtain ⟨m, hm, rfl⟩ := hsent op hop
    exact (h.conveyed.sendable m hm).2
  rw [hops, List.drop_left] at hfs
  refine ⟨hconveyed, ?_⟩
  show Holds basePath cwd p fs (s.ops.foldl Op.applyContent _)
  rw [hops, List.foldl_append]
  exact h.holds.carryOut hstorable hfs

theorem propagated_inductive (base basePath : Path) (cwd p : List FileName) :
    (propagation base basePath cwd p).Inductive (Orderly base basePath)
      (Propagated base basePath cwd p) where
  base x hx := by
    have hsynced : x.client.synced = x.client.tree := hx.client.1.2.2.1
    refine ⟨conveyed_start hx.client hx.suits hx.pending hx.pc hx.ops, ?_⟩
    rw [hx.ops, hsynced]
    exact hx.disk
  keep x a y h ha hn := by
    cases a with
    | client a => exact h.client ha hn
    | worker a => exact h.worker ha hn

end Runs

/-! ### After a silent iteration -/

section Settled
variable {base : Path} {s t : Client}

theorem Quiet.mono {ok ok' : Client → Action → Prop} (h : Quiet base ok s t)
    (sub : ∀ u a, ok u a → ok' u a) : Quiet base ok' s t where
  head := h.head
  again := h.again
  loop := h.loop.mono fun u a ha => ⟨ha.1, sub u a ha.2⟩
  silent := h.silent

/-- A path that the server has by the messages has contents by them. -/
theorem applyContent_known (ms : List Message) {paths : List Path} {server : Contents}
    (h : ∀ r ∈ paths, server r ≠ none) :
    ∀ r ∈ ms.foldl Message.applyPath paths, ms.foldl Message.applyContent server r ≠ none := by
  induction ms generalizing paths server with
  | nil => exact h
  | cons m ms ih =>
    refine ih fun r hr => ?_
    cases m with
    | create path size =>
      by_cases hpath : r = path
      · simp [Message.applyContent, hpath]
      · have hold : r ∈ paths := by simpa [Message.applyPath, hpath] using hr
        simpa [Message.applyContent, hpath] using h r hold
    | delete path =>
      have hold : r ∈ paths ∧ r ≠ path := by simpa [Message.applyPath] using hr
      simpa [Message.applyContent, hold.2] using h r hold.1
    | update size path data =>
      by_cases hpath : r = path
      · simp [Message.applyContent, hpath]
      · simpa [Message.applyContent, hpath] using h r hr

/-- What the server has is what the client has. -/
theorem Recorded.settled (h : Recorded base s) (htracked : Tracked base s)
    (hsynced : s.synced.NamesOk) (hq : Quiet base (GrowsOneAtATime base) s t) :
    serverContents base t = fileContents base t.tree := by
  obtain ⟨hcount, ⟨⟨-, hone⟩, -⟩, htree⟩ := quiet_count htracked hq
  obtain ⟨a, u, ⟨hl, -⟩, hn, hrest⟩ := hq.loop.first
  have hsame : serverContents base t = serverContents base s := by
    simp only [serverContents, hq.silent, (path₀_tree hrest).2, (next_tree hl hn).2]
  simp only [OneChange, hq.head] at hone
  rw [hsame, htree]
  funext r
  cases hfile : fileContents base s.tree r with
  | none =>
    by_contra hserver
    obtain ⟨f, hf, hpath⟩ := List.mem_map.mp (h.known r hserver)
    have hrel : removeBasePath f.path base = r :=
      List.append_cancel_left ((filePaths_below h.names _ (List.mem_map_of_mem hf)).trans hpath)
    have hsome := fileContents_file h.names hf
    rw [hrel, hfile] at hsome
    contradiction
  | some content =>
    obtain ⟨f, hf, hpath, rfl⟩ := fileContents_some hfile
    have hmem : base ++ r ∈ filePaths base s.tree := hpath ▸ List.mem_map_of_mem hf
    have hserved : r ∈ serverPaths base s := by
      rw [htracked.agree, hq.head]
      exact hone hcount _ hmem
    have hknown : serverContents base s r ≠ none := by
      refine applyContent_known s.sent (fun r hr => ?_) r hserved
      rw [mem_relPaths hsynced] at hr
      obtain ⟨g, hg, hgpath⟩ := List.mem_map.mp hr
      have hrel : removeBasePath g.path base = r :=
        List.append_cancel_left ((filePaths_below hsynced _ (List.mem_map_of_mem hg)).trans hgpath)
      rw [← hrel, fileContents_file hsynced hg]
      exact Option.some_ne_none _
    obtain ⟨c, hc⟩ := Option.ne_none_iff_exists'.mp hknown
    rw [hc]
    congr 1
    by_contra hne
    have hrel : removeBasePath f.path base = r :=
      List.append_cancel_left ((filePaths_below h.names _ (List.mem_map_of_mem hf)).trans hpath)
    -- an outdated copy would have been reported
    rcases h.due f hf ⟨c, hrel ▸ hc, hne⟩ with hold | hhalf
    · exact h.quiet (hq.mono fun u a ha => ha.2) hf hold
    · simp [hq.head, Half] at hhalf

end Settled

theorem op_applyContent (ms : List Message) (server : Contents) :
    (ms.map Message.op).foldl Op.applyContent server = ms.foldl Message.applyContent server := by
  rw [List.foldl_map]
  congr 1
  funext server m
  cases m <;> rfl

/-- When the client has gone once through its loop without a message and the connection is
drained, the files below the base directory of the server are the client's, with their
contents: as long as there are `MAX_FILES` at most, a new file is empty at its rescan, at
which no other is outdated, and `malloc` returns the freed block. -/
theorem files_arrive {base basePath : Path} {cwd p : List FileName} {x y : Propagation}
    (hx : (propagation base basePath cwd p).Reaches (Orderly base basePath) x)
    (hy : (propagation base basePath cwd p).Reaches (Orderly base basePath) y)
    (hquiet : Quiet base (GrowsOneAtATime base) x.client y.client)
    (hdrained : y.service.pending = []) (r : List FileName) :
    fileAt y.disk (p ++ r) = fileContents base y.client.tree (relativePath r) := by
  have hbefore := (propagated_inductive base basePath cwd p).holds hx
  have hafter := (propagated_inductive base basePath cwd p).holds hy
  rw [hafter.holds.files, hafter.conveyed.aligned.drained hdrained, op_applyContent]
  obtain ⟨hrecorded, htracked, -, hsynced, -, -⟩ := hbefore.conveyed
  exact congrFun (hrecorded.settled htracked hsynced hquiet) (relativePath r)

/-! ### One file that is rewritten -/

def notesName : FileName := ⟨utf8 "n.txt", by decide⟩

def notes (mtime : ℤ) (content : Bytes) : Listing := oneFile notesName.val mtime content

def notesDisk : FileSystem :=
  oneFolder.put [nameS, notesName] (.file (utf8 "old")) (by decide) (by decide)

/-- Only the second listing comes from outside. -/
def Rewrites (x : Propagation) : PropagationStep → Prop
  | .client a => GrowsOneAtATime watchedDir x.client a ∧ (match a with
      | .env tree => tree = notes 2 (utf8 "new")
      | _ => True)
  | .worker a => Whole x.service a

instance (x : Propagation) : DecidablePred (Rewrites x)
  | .client (.env tree) => inferInstanceAs (Decidable ((_ ∧ _) ∧ tree = _))
  | .client .poll | .client (.rescan _ _) => inferInstanceAs (Decidable ((_ ∧ _) ∧ True))
  | .worker a => inferInstanceAs (Decidable (Whole x.service a))

def beforeNotes : Propagation :=
  ⟨.atStart watchedDir (notes 1 (utf8 "old")), ⟨[], 0, .top, []⟩, notesDisk⟩

def reads (n : ℕ) : PropagationStep := .worker ⟨n, 0, [0], true⟩

def notesRun : List PropagationStep :=
  [.client (.env (notes 2 (utf8 "new"))), .client .poll, .client .poll, .client .poll,
    .client .poll, .client .poll]

def notesSent : Propagation :=
  (((propagation watchedDir (utf8 "/s") [] [nameS]).guarded Rewrites).run beforeNotes
    notesRun).get (by decide +kernel)

def onceMore : List Action := [.poll, .poll, .poll, .poll, .poll]

def notesRead : Propagation :=
  (((propagation watchedDir (utf8 "/s") [] [nameS]).guarded Rewrites).run notesSent
    [reads 4, reads 11, reads 8, reads 4, reads 6, reads 3]).get (by decide +kernel)

def notesSettled : Propagation :=
  (((propagation watchedDir (utf8 "/s") [] [nameS]).guarded Rewrites).run notesRead
    (onceMore.map .client)).get (by decide +kernel)

theorem oneFile_suits {n : FileName} {mtime : ℤ} {content : Bytes} (hdot : dot ∈ n.val)
    (hlength : (watchedDir ++ slash :: n.val).length < maxPathLength)
    (hstring : (0 : Byte) ∉ watchedDir ++ slash :: n.val)
    (hfits : ¬ createOverflows (utf8 "/s" ++
      removeBasePath (watchedDir ++ slash :: n.val) watchedDir))
    (hsize : content.length < 2 ^ 31) :
    ∀ f ∈ (oneFile n.val mtime content).files watchedDir, Suits watchedDir (utf8 "/s") f := by
  intro f hf
  obtain rfl := List.mem_singleton.mp hf
  exact ⟨⟨[], n, by simp, hdot⟩, hlength, hstring, hfits, hsize⟩

theorem notes_suits {mtime : ℤ} {content : Bytes} (hsize : content.length < 2 ^ 31) :
    ∀ f ∈ (notes mtime content).files watchedDir, Suits watchedDir (utf8 "/s") f :=
  oneFile_suits (by decide) (by decide) (by decide) (by decide) hsize

theorem oneFile_contents (n : FileName) (mtime : ℤ) (content : Bytes) (r : List FileName) :
    fileContents watchedDir (oneFile n.val mtime content) (relativePath r) =
      if r = [n] then some content else none := by
  have hiff : watchedDir ++ slash :: n.val = watchedDir ++ relativePath r ↔ r = [n] := by
    constructor
    · intro heq
      have hone : relativePath [n] = relativePath r := by
        simpa using List.append_cancel_left heq
      exact (relativePath_injective hone).symm
    · rintro rfl
      simp
  simp only [fileContents, oneFile, Listing.files_file, Listing.files_nil]
  by_cases hr : r = [n]
  · simp [hr]
  · simp [hr, hiff]

theorem rewrites_orderly (x : Propagation) (a : PropagationStep) (h : Rewrites x a) :
    Orderly watchedDir (utf8 "/s") x a := by
  cases a with
  | worker a => exact h
  | client a =>
    refine ⟨h.1, ?_⟩
    rintro tree rfl
    have htree : tree = notes 2 (utf8 "new") := h.2
    exact htree ▸ notes_suits (by decide)

theorem beforeNotes_start :
    (propagation watchedDir (utf8 "/s") [] [nameS]).start beforeNotes where
  client := ⟨atStart_start _ _ (by decide) (by decide), by decide⟩
  suits := notes_suits (by decide)
  pending := rfl
  pc := rfl
  ops := rfl
  disk := by
    refine ⟨by decide, by decide, fun r => ?_⟩
    have hnode : notesDisk.node ([nameS] ++ r) =
        if r = [notesName] then some (.file (utf8 "old"))
        else if r = [] then some .dir else none := by
      simp [notesDisk, oneFolder, Disk.node_blank]
    have hfile : fileContents watchedDir (notes 1 (utf8 "old")) (relativePath r) =
        if r = [notesName] then some (utf8 "old") else none := oneFile_contents ..
    show fileAt notesDisk ([nameS] ++ r) =
      fileContents watchedDir (notes 1 (utf8 "old")) (relativePath r)
    rw [fileAt, hnode, hfile]
    by_cases hr : r = [notesName]
    · simp [hr]
    · by_cases hnil : r = [] <;> simp [hr, hnil]

theorem notesSettled_reaches :
    (propagation watchedDir (utf8 "/s") [] [nameS]).Reaches (Orderly watchedDir (utf8 "/s"))
      notesRead ∧
    (propagation watchedDir (utf8 "/s") [] [nameS]).Reaches (Orderly watchedDir (utf8 "/s"))
      notesSettled := by
  have hsent : (propagation watchedDir (utf8 "/s") [] [nameS]).Reaches Rewrites notesSent :=
    .run (.start beforeNotes_start) _ (Option.some_get _).symm
  have hread : (propagation watchedDir (utf8 "/s") [] [nameS]).Reaches Rewrites notesRead :=
    .run hsent _ (Option.some_get _).symm
  have hsettled : (propagation watchedDir (utf8 "/s") [] [nameS]).Reaches Rewrites notesSettled :=
    .run hread _ (Option.some_get _).symm
  exact ⟨hread.mono rewrites_orderly, hsettled.mono rewrites_orderly⟩

theorem client_step {x y : Propagation} {a : Action}
    (h : ((propagation watchedDir (utf8 "/s") [] [nameS]).guarded Rewrites).next x (.client a) =
      some y) :
    GrowsOneAtATime watchedDir x.client a ∧ (watch watchedDir).next x.client a = some y.client := by
  simp only [Machine.guarded] at h
  split at h
  · next hok =>
    obtain ⟨c, hc, rfl⟩ := Option.map_eq_some_iff.mp h
    exact ⟨hok.1, hc⟩
  · contradiction

theorem client_path {x y : Propagation} {a : Action} (as : List Action)
    (hloop : ∀ b ∈ a :: as, b.IsLoop)
    (h : ((propagation watchedDir (utf8 "/s") [] [nameS]).guarded Rewrites).run x
      ((a :: as).map .client) = some y) :
    (watch watchedDir).Path (fun s a => a.IsLoop ∧ GrowsOneAtATime watchedDir s a)
      x.client y.client := by
  have hproject : ∃ c, y.client = c ∧ (watch watchedDir).Path
      (fun s a => a.IsLoop ∧ GrowsOneAtATime watchedDir s a) x.client c := by
    refine Machine.run_projects (fun (x : Propagation) c => x.client = c) PropagationStep.client
      as (fun b hb x y c hc hn => ?_) rfl h
    obtain ⟨hok, hnext⟩ := client_step hn
    exact ⟨y.client, rfl, ⟨hloop b hb, hc ▸ hok⟩, hc ▸ hnext⟩
  obtain ⟨c, rfl, hpath⟩ := hproject
  exact hpath

theorem notes_arrive : ∃ y, (propagation watchedDir (utf8 "/s") [] [nameS]).Reaches
    (Orderly watchedDir (utf8 "/s")) y ∧
    y.client.sent = [.update 3 (utf8 "/n.txt") (utf8 "new")] ∧
    fileAt y.disk [nameS, notesName] = some (utf8 "new") := by
  obtain ⟨hread, hsettled⟩ := notesSettled_reaches
  have hrun := (Option.some_get (x := ((propagation watchedDir (utf8 "/s") [] [nameS]).guarded
    Rewrites).run notesRead (onceMore.map .client)) (by decide +kernel)).symm
  have hquiet : Quiet watchedDir (GrowsOneAtATime watchedDir) notesRead.client
      notesSettled.client :=
    ⟨by decide +kernel, by decide +kernel, client_path _ (by simp [Action.IsLoop]) hrun,
      by decide +kernel⟩
  refine ⟨notesSettled, hsettled, by decide +kernel, ?_⟩
  have harrived := files_arrive hread hsettled hquiet (by decide +kernel) [notesName]
  have htree : fileContents watchedDir notesSettled.client.tree (relativePath [notesName]) =
      some (utf8 "new") := by decide +kernel
  exact harrived.trans htree

end AdvancedCProjects.Bibak
