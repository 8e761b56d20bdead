import AdvancedCProjects.Base.Machine
import AdvancedCProjects.Bibak.Frames
import AdvancedCProjects.Bibak.Handlers
import AdvancedCProjects.Bibak.Mirror

/-!
# Clients that connect later (BibakBOXServer.c:156-209, 379-403, 474-480)

The server lists its directory once, before it accepts anybody. A client that
connects later is sent that list, and the files as they are by then.
-/

namespace AdvancedCProjects.Bibak
open Base

structure Host where
  contents : List FilePath
  fs : FileSystem

/-- The server between two connections; a step is a message it carries out. -/
def host (basePath : Path) (cwd : List FileName) : Machine Host Op where
  start s := ∃ fuel, getDirectoryContents s.fs cwd fuel basePath = some s.contents
  next s op := (op.apply basePath cwd s.fs).map fun fs => { s with fs := fs }

/-- What the calls of `fread` deliver until the end of the file. -/
def freads : ℕ → Bytes → List Bytes
  | 0, _ => []
  | fuel + 1, content =>
    if content = [] then []
    else content.take bufferSize :: freads fuel (content.drop bufferSize)

/-- What `sendFile` is told about a path when every send succeeds. A directory can
be opened and not read. -/
def answers (fs : FileSystem) (cwd : List FileName) (dirSize : ℕ) (path : Path) : Calls :=
  match stat fs cwd path with
  | none => ⟨none, 1, none, 0⟩
  | some .dir => ⟨some dirSize, 1, some [], 0⟩
  | some (.file content) =>
    let pieces := freads content.length content
    ⟨some content.length, 1, some pieces, pieces.length⟩

def Host.requests (s : Host) (cwd : List FileName) (dirSize : ℕ) : List (FilePath × Calls) :=
  s.contents.map fun e => (e, answers s.fs cwd dirSize (cstr e.path))

def fileContent (fs : FileSystem) (cwd : List FileName) (e : FilePath) : Bytes :=
  match stat fs cwd (cstr e.path) with
  | some (.file content) => content
  | _ => []

/-- A client that connects now: `base_path` fits the buffer it is copied to, the
list is that of the directory as it is, and all files follow it. -/
structure Served (basePath : Path) (cwd : List FileName) (dirSize : ℕ) (s : Host) : Prop where
  path : basePath.length < 256
  listing : ∃ p keys, resolve s.fs cwd basePath = .ok p ∧ s.fs.Lists p keys ∧
    s.contents = keys.map (entryAt s.fs p basePath)
  count : wrapInt 4 s.contents.length = s.contents.length
  completes : (Frames.sendFile (s.requests cwd dirSize)).2 = .returned
  framed : Frames.FilesFramed (s.requests cwd dirSize)
    (Frames.sendFile (s.requests cwd dirSize)).1
  bytes : (Frames.sendFile (s.requests cwd dirSize)).1.flatMap Sent.bytes
    = sendFile (fileContent s.fs cwd) s.contents

/-! ### What has to hold -/

/-- The messages of the clients name something below their directory. -/
def Op.Named : Op → Prop
  | .create path | .update path _ | .delete path => ∃ r, r ≠ [] ∧ path = relativePath r

/-- The directory the server starts with. -/
structure Begins (basePath : Path) (cwd : List FileName) (s : Host) : Prop where
  string : (0 : Byte) ∉ basePath
  short : basePath.length < 256
  count : s.contents.length < 2 ^ 31
  dir : ∃ p, resolve s.fs cwd basePath = .ok p ∧ s.fs.node p = some .dir ∧
    FitsBelow s.fs p basePath ∧
    ∀ r content, s.fs.node (p ++ r) = some (.file content) → content.length < 2 ^ 31

/-- CREATE names what is there already, and `base_path` is absolute like the folders
it makes; UPDATE names a file, and DELETE nothing that can be removed. -/
def Keeps (basePath : Path) (cwd : List FileName) (s : Host) : Op → Prop
  | .create path => basePath.head? = some slash ∧ ∃ p r n, resolve s.fs cwd basePath = .ok p ∧
      path = relativePath (r ++ [n]) ∧
      (s.fs.node (p ++ (r ++ [n]))).map emptied = some (createdNode n)
  | .update path data => ∃ p r, resolve s.fs cwd basePath = .ok p ∧ r ≠ [] ∧
      path = relativePath r ∧ (s.fs.node (p ++ r)).map emptied = some (.file []) ∧
      data.length < 2 ^ 31
  | .delete path => ∃ p r, resolve s.fs cwd basePath = .ok p ∧ r ≠ [] ∧ path = relativePath r ∧
      (s.fs.node (p ++ r) = none ∨ s.fs.children (p ++ r) ≠ [])

/-! ### The list and the disk agree -/

structure Synced (basePath : Path) (cwd p : List FileName) (keys : List (List FileName))
    (s : Host) : Prop where
  string : (0 : Byte) ∉ basePath
  short : basePath.length < 256
  count : s.contents.length < 2 ^ 31
  base : resolve s.fs cwd basePath = .ok p
  dir : s.fs.node p = some .dir
  fits : FitsBelow s.fs p basePath
  small : ∀ r content, s.fs.node (p ++ r) = some (.file content) → content.length < 2 ^ 31
  lists : s.fs.Lists p keys
  contents : s.contents = keys.map (entryAt s.fs p basePath)

section Sent
variable {basePath : Path} {cwd p r : List FileName} {keys : List (List FileName)} {dirSize : ℕ}
  {s : Host} {fs : FileSystem} {content : Bytes}

theorem freads_flatten {fuel : ℕ} (h : content.length ≤ fuel) :
    (freads fuel content).flatten = content := by
  induction fuel generalizing content with
  | zero =>
    obtain rfl := List.length_eq_zero_iff.mp (Nat.le_zero.mp h)
    rfl
  | succ fuel ih =>
    unfold freads
    split
    · next hnil => rw [hnil, List.flatten_nil]
    · next hne =>
      have hpos := List.length_pos_iff.mpr hne
      have hbuffer : 0 < bufferSize := by decide
      rw [List.flatten_cons, ih (by rw [List.length_drop]; omega), List.take_append_drop]

theorem Begins.synced (h : Begins basePath cwd s) (hstart : (host basePath cwd).start s) :
    ∃ p keys, Synced basePath cwd p keys s := by
  obtain ⟨p, hbase, hdir, hfits, hsmall⟩ := h.dir
  obtain ⟨fuel, hfuel⟩ := hstart
  have hlists := s.fs.below_lists (p := p) (s.fs.depth + 1) (by omega)
  have hmore := getDirectoryContents_mono (Nat.le_add_right fuel (s.fs.depth + 1)) hfuel
  rw [getDirectoryContents_eq _ hbase hdir hfits (by omega)] at hmore
  rw [s.fs.below_stable (p := p) (show s.fs.depth + 1 ≤ fuel + (s.fs.depth + 1) by omega)
    (by omega)] at hmore
  exact ⟨p, _, h.string, h.short, h.count, hbase, hdir, hfits, hsmall, hlists,
    (Option.some.inj hmore).symm⟩

theorem Synced.cstr_path (h : Synced basePath cwd p keys s) (hmem : r ∈ keys) :
    cstr (entryAt s.fs p basePath r).path = basePath ++ relativePath r := by
  obtain ⟨hr, hnode⟩ := (h.lists.mem r).mp hmem
  have hno : (0 : Byte) ∉ basePath ++ relativePath r := by
    rw [List.mem_append, not_or]
    exact ⟨h.string, no_zero r⟩
  rw [entryAt, ofPath_path _ (h.fits r hr hnode), cstr_append hno]

theorem isFile_iff {x : Option (Node Bytes)} :
    isFile x = true ↔ ∃ content, x = some (.file content) := by
  cases x with
  | none => simp [isFile]
  | some x => cases x <;> simp [isFile]

theorem Synced.stat_entry (h : Synced basePath cwd p keys s) (hmem : r ∈ keys) :
    stat s.fs cwd (cstr (entryAt s.fs p basePath r).path) = s.fs.node (p ++ r) := by
  rw [h.cstr_path hmem, stat_below h.base ((h.lists.mem r).mp hmem).2]

theorem Synced.request (h : Synced basePath cwd p keys s) {e : FilePath × Calls}
    (he : e ∈ s.requests cwd dirSize) (hfile : e.1.isFile ≠ 0) :
    ∃ content : Bytes, content.length < 2 ^ 31 ∧ fileContent s.fs cwd e.1 = content ∧
      Frames.Undisturbed content 1 e.2 := by
  simp only [Host.requests, h.contents, List.map_map, List.mem_map] at he
  obtain ⟨r, hr, rfl⟩ := he
  have hisFile : isFile (s.fs.node (p ++ r)) = true := (ofPath_isFile _).mp hfile
  obtain ⟨content, hnode⟩ := isFile_iff.mp hisFile
  have hstat := h.stat_entry hr
  rw [hnode] at hstat
  refine ⟨content, h.small r content hnode, by simp only [Function.comp, fileContent, hstat], ?_⟩
  simp only [Function.comp, answers, hstat]
  exact ⟨rfl, le_rfl, _, rfl, freads_flatten le_rfl, le_rfl⟩

theorem Synced.served (h : Synced basePath cwd p keys s) : Served basePath cwd dirSize s := by
  have hsent := Frames.sendFile_bytes (fileContent s.fs cwd) (s.requests cwd dirSize) ?_
  · have hfst : (s.requests cwd dirSize).map Prod.fst = s.contents := by
      simp [Host.requests, Function.comp_def]
    have hlisting : ∃ p keys, resolve s.fs cwd basePath = .ok p ∧ s.fs.Lists p keys ∧
        s.contents = keys.map (entryAt s.fs p basePath) :=
      ⟨p, keys, h.base, h.lists, h.contents⟩
    refine ⟨h.short, hlisting, wrapInt_length h.count, hsent.2, ?_, ?_⟩
    · refine (Frames.filesFramed_iff _ hsent.2).mpr fun e he hfile => ?_
      obtain ⟨content, hsmall, -, hcalls⟩ := h.request he hfile
      refine ⟨hcalls.sends_le, (Frames.steady_small hcalls.stat hsmall).mpr ?_⟩
      obtain ⟨pieces, hopen, hpieces, -⟩ := hcalls.fopen
      rw [Calls.read, hopen, Option.getD_some, hpieces]
    · rw [hsent.1, hfst]
  · intro e he hfile
    obtain ⟨content, -, hcontent, hcalls⟩ := h.request he hfile
    rwa [hcontent]

end Sent

/-! ### Messages -/

section Messages
variable {basePath : Path} {cwd p r : List FileName} {keys : List (List FileName)} {dirSize : ℕ}
  {s t : Host} {fs : FileSystem} {op : Op}

theorem emptied_dir {x : Option (Node Bytes)} : x.map emptied = some .dir ↔ x = some .dir := by
  cases x with
  | none => simp
  | some x => cases x <;> simp [emptied]

theorem emptied_isFile {x y : Option (Node Bytes)} (h : x.map emptied = y.map emptied) :
    isFile x = isFile y := by
  have hfile (x : Option (Node Bytes)) : isFile (x.map emptied) = isFile x := by
    cases x with
    | none => rfl
    | some x => cases x <;> rfl
  rw [← hfile x, h, hfile y]

theorem emptied_createdNode (n : FileName) : emptied (createdNode n) = createdNode n := by
  unfold createdNode
  split <;> rfl

theorem Synced.shape (h : Synced basePath cwd p keys s)
    (hshape : ∀ q, (fs.node q).map emptied = (s.fs.node q).map emptied)
    (hsmall : ∀ r content, fs.node (p ++ r) = some (.file content) → content.length < 2 ^ 31) :
    Synced basePath cwd p keys { s with fs := fs } := by
  have hdirs (q : List FileName) (hq : s.fs.node q = some .dir) : fs.node q = some .dir := by
    rw [← emptied_dir, hshape, hq]
    rfl
  have hnode (q : List FileName) : fs.node q ≠ none ↔ s.fs.node q ≠ none := by
    refine not_congr ?_
    rw [← Option.map_eq_none_iff (f := emptied), hshape, Option.map_eq_none_iff]
  constructor
  case string => exact h.string
  case short => exact h.short
  case count => exact h.count
  case base => exact resolve_mono hdirs h.base
  case dir => exact hdirs p h.dir
  case fits => exact fun r hr hne => h.fits r hr ((hnode _).mp hne)
  case small => exact hsmall
  case lists => exact ⟨fun r => by rw [h.lists.mem, hnode], h.lists.before⟩
  case contents =>
    dsimp only
    rw [h.contents]
    refine List.map_congr_left fun r _ => ?_
    rw [entryAt, entryAt, emptied_isFile (hshape _)]

theorem Synced.replace (h : Synced basePath cwd p keys s) {x : Node Bytes}
    (hold : (s.fs.node (p ++ r)).map emptied = some (emptied x))
    (hx : ∀ content, x = .file content → content.length < 2 ^ 31)
    (hnode : ∀ q, fs.node q = if q = p ++ r then some x else s.fs.node q) :
    Synced basePath cwd p keys { s with fs := fs } := by
  refine h.shape (fun q => ?_) fun q content hq => ?_
  · rw [hnode]
    split
    · next heq => rw [heq, hold, Option.map_some]
    · rfl
  · rw [hnode] at hq
    split at hq
    · exact hx content (Option.some.inj hq)
    · exact h.small q content hq

theorem Synced.keep (h : Synced basePath cwd p keys s) (hk : Keeps basePath cwd s op)
    (hn : (host basePath cwd).next s op = some t) : Synced basePath cwd p keys t := by
  obtain ⟨fs, hop, rfl⟩ := Option.map_eq_some_iff.mp hn
  cases op with
  | create path =>
    obtain ⟨habs, q, r, n, hq, rfl, hold⟩ := hk
    obtain rfl : q = p := Except.ok.inj (hq.symm.trans h.base)
    obtain ⟨-, -, hnode⟩ := handleCreate_below habs h.base h.dir hop
    refine h.replace (by rw [hold, emptied_createdNode]) (fun content hx => ?_)
      (hnode fun hnone => by simp [hnone] at hold)
    unfold createdNode at hx
    split at hx
    · obtain rfl := Node.file.inj hx
      decide
    · contradiction
  | update path data =>
    obtain ⟨q, r, hq, -, rfl, hold, hdata⟩ := hk
    obtain rfl : q = p := Except.ok.inj (hq.symm.trans h.base)
    obtain ⟨-, hnode⟩ := handleUpdate_below h.base hop
    exact h.replace hold (fun content hx => Node.file.inj hx ▸ hdata) hnode
  | delete path =>
    obtain ⟨q, r, hq, -, rfl, hold⟩ := hk
    obtain rfl : q = p := Except.ok.inj (hq.symm.trans h.base)
    obtain rfl := Option.some.inj hop
    rcases handleDelete_below (r := r) h.base with hsame | ⟨hthere, hempty, -⟩
    · rw [hsame]
      exact h
    · rcases hold with hnone | hfull
      · exact (hthere hnone).elim
      · exact (hfull hempty).elim

theorem Served.same_count (hserved : Served basePath cwd dirSize t)
    (h : Synced basePath cwd p keys s) (hcontents : t.contents = s.contents) :
    ∃ q keys', resolve t.fs cwd basePath = .ok q ∧ t.fs.Lists q keys' ∧
      keys'.length = keys.length := by
  obtain ⟨q, keys', hbase, hlists, hlisted⟩ := hserved.listing
  refine ⟨q, keys', hbase, hlists, ?_⟩
  have hlength := congrArg List.length (hlisted.symm.trans (hcontents.trans h.contents))
  simpa using hlength

theorem Synced.nothing_new (h : Synced basePath cwd p keys s)
    (hserved : Served basePath cwd dirSize { s with fs := fs })
    (hkeep : ∀ q, s.fs.node q ≠ none → (fs.node q).map emptied = (s.fs.node q).map emptied)
    (hr : r ≠ []) (hnew : fs.node (p ++ r) ≠ none) : s.fs.node (p ++ r) ≠ none := by
  intro hold
  obtain ⟨q, keys', hbase, hlists, hlength⟩ := hserved.same_count h rfl
  have hbase' : resolve fs cwd basePath = .ok p := by
    refine resolve_mono (fun q hq => ?_) h.base
    rw [← emptied_dir, hkeep q (by simp [hq]), hq]
    rfl
  obtain rfl : q = p := Except.ok.inj (hbase.symm.trans hbase')
  have hlt := h.lists.length_lt hlists (fun q hq hnone => ?_) hr hold hnew
  · omega
  · have hmap := hkeep q hq
    rw [hnone] at hmap
    exact hq (Option.map_eq_none_iff.mp hmap.symm)

theorem Synced.nothing_gone (h : Synced basePath cwd p keys s)
    (hserved : Served basePath cwd dirSize { s with fs := fs }) (hr : r ≠ [])
    (hnode : ∀ q, fs.node q = if q = p ++ r then none else s.fs.node q) :
    s.fs.node (p ++ r) = none := by
  by_contra hold
  obtain ⟨q, keys', hbase, hlists, hlength⟩ := hserved.same_count h rfl
  have hkeep (q : List FileName) (hq : fs.node q ≠ none) : fs.node q = s.fs.node q := by
    rw [hnode] at hq ⊢
    split at hq
    · contradiction
    · next hne => rw [if_neg hne]
  have hbase' : resolve s.fs cwd basePath = .ok q := by
    refine resolve_mono (fun q hq => ?_) hbase
    rw [← hkeep q (by simp [hq]), hq]
  obtain rfl : q = p := Except.ok.inj (hbase'.symm.trans h.base)
  have hgone : fs.node (q ++ r) = none := by rw [hnode, if_pos rfl]
  have hlt := hlists.length_lt h.lists (fun q hq => hkeep q hq ▸ hq) hr hgone hold
  omega

theorem Served.small_file {content : Bytes} (hserved : Served basePath cwd dirSize s)
    (hbase : resolve s.fs cwd basePath = .ok p)
    (hnode : s.fs.node (p ++ r) = some (.file content)) (hr : r ≠ [])
    (hno : (0 : Byte) ∉ basePath) (hlen : (basePath ++ relativePath r).length < maxPathLength) :
    content.length < 2 ^ 31 := by
  obtain ⟨q, keys, hq, hlists, hcontents⟩ := hserved.listing
  obtain rfl : q = p := Except.ok.inj (hq.symm.trans hbase)
  have hthere : s.fs.node (q ++ r) ≠ none := by simp [hnode]
  have hmem : r ∈ keys := (hlists.mem r).mpr ⟨hr, hthere⟩
  set e := entryAt s.fs q basePath r with he
  have hpath : cstr e.path = basePath ++ relativePath r := by
    rw [he, entryAt, ofPath_path _ hlen, cstr_append (by simp [hno, no_zero])]
  have hrequest : (e, answers s.fs cwd dirSize (cstr e.path)) ∈ s.requests cwd dirSize := by
    refine List.mem_map.mpr ⟨e, ?_, rfl⟩
    rw [hcontents]
    exact List.mem_map_of_mem hmem
  have hfile : e.isFile ≠ 0 := by
    rw [he, entryAt, ofPath_isFile, hnode]
    rfl
  obtain ⟨-, size, hstat, hread⟩ :=
    (Frames.filesFramed_iff _ hserved.completes).mp hserved.framed _ hrequest hfile
  simp only [hpath, answers, stat_below hbase hthere, hnode, Option.some.injEq, Calls.read,
    Option.getD_some, freads_flatten le_rfl] at hstat hread
  have hrange := (wrapInt_natCast_le size).2
  omega

theorem Synced.keeps (h : Synced basePath cwd p keys s) (hnamed : op.Named)
    (habs : ∀ path, op = .create path → basePath.head? = some slash)
    (hn : (host basePath cwd).next s op = some t) (hserved : Served basePath cwd dirSize t) :
    Keeps basePath cwd s op := by
  obtain ⟨fs, hop, rfl⟩ := Option.map_eq_some_iff.mp hn
  cases op with
  | create path =>
    obtain ⟨r, hr, rfl⟩ := hnamed
    obtain ⟨r, n, rfl⟩ := (List.eq_nil_or_concat r).resolve_left hr
    rw [List.concat_eq_append] at hop hr ⊢
    obtain ⟨hkeep, hend, -⟩ := handleCreate_below (habs _ rfl) h.base h.dir hop
    have hthere := h.nothing_new hserved hkeep hr (by simp [hend])
    have hsame := hkeep _ hthere
    rw [hend, Option.map_some, emptied_createdNode] at hsame
    exact ⟨habs _ rfl, p, r, n, h.base, rfl, hsame.symm⟩
  | update path data =>
    obtain ⟨r, hr, rfl⟩ := hnamed
    obtain ⟨hno, hnode⟩ := handleUpdate_below h.base hop
    have hfile (hthere : s.fs.node (p ++ r) ≠ none) :
        (s.fs.node (p ++ r)).map emptied = some (.file []) := by
      cases hx : s.fs.node (p ++ r) with
      | none => exact (hthere hx).elim
      | some x =>
        cases x with
        | dir => exact (hno hx).elim
        | file content => rfl
    have hkeep (q : List FileName) (hq : s.fs.node q ≠ none) :
        (fs.node q).map emptied = (s.fs.node q).map emptied := by
      rw [hnode]
      split
      · next heq =>
        subst heq
        rw [hfile hq]
        rfl
      · rfl
    have hwritten : fs.node (p ++ r) = some (.file data) := by rw [hnode, if_pos rfl]
    have hthere := h.nothing_new hserved hkeep hr (by simp [hwritten])
    have hbase : resolve fs cwd basePath = .ok p := by
      refine resolve_mono (fun q hq => ?_) h.base
      rw [← emptied_dir, hkeep q (by simp [hq]), hq]
      rfl
    exact ⟨p, r, h.base, hr, rfl, hfile hthere,
      hserved.small_file hbase hwritten hr h.string (h.fits r hr hthere)⟩
  | delete path =>
    obtain ⟨r, hr, rfl⟩ := hnamed
    obtain rfl := Option.some.inj hop
    refine ⟨p, r, h.base, hr, rfl, ?_⟩
    by_contra hgone
    obtain ⟨hthere, hempty⟩ := not_or.mp hgone
    exact hthere (h.nothing_gone hserved hr
      (handleDelete_removes h.base hr hthere (not_not.mp hempty)))

end Messages

/-! ### Runs -/

/-- From a start that `Begins` admits, every client is served as long as no message
adds or removes an entry or writes 2 GiB; the first message that does ends it. What
a CREATE does under a relative `base_path` is left open. -/
theorem joiners_served (basePath : Path) (cwd : List FileName) (dirSize : ℕ) (s₀ s : Host)
    (hstart : (host basePath cwd).start s₀) (hbegins : Begins basePath cwd s₀)
    (hrun : (host basePath cwd).Path₀ (Keeps basePath cwd) s₀ s) :
    Served basePath cwd dirSize s ∧
      ∀ op t, op.Named → (∀ path, op = .create path → basePath.head? = some slash) →
        (host basePath cwd).next s op = some t →
        (Served basePath cwd dirSize t ↔ Keeps basePath cwd s op) := by
  obtain ⟨p, keys, hsynced⟩ := hbegins.synced hstart
  have hsynced : Synced basePath cwd p keys s :=
    hrun.keep hsynced fun _ _ _ h hk hn => h.keep hk hn
  refine ⟨hsynced.served, fun op t hnamed habs hn => ⟨fun hserved => ?_, fun hk => ?_⟩⟩
  · exact hsynced.keeps hnamed habs hn hserved
  · exact (hsynced.keep hk hn).served

def aloneBelow : Host :=
  ⟨(oneBelow.below 3 [nameS]).map (entryAt oneBelow [nameS] (utf8 "/s")), oneBelow⟩

theorem aloneBelow_start : (host (utf8 "/s") []).start aloneBelow :=
  ⟨3, getDirectoryContents_eq 3 (by decide) (by decide) (by decide) (by decide)⟩

theorem aloneBelow_begins : Begins (utf8 "/s") [] aloneBelow where
  string := by decide
  short := by decide
  count := by decide
  dir := by
    refine ⟨[nameS], by decide, by decide, by decide, fun r content h => ?_⟩
    simp only [aloneBelow, oneBelow, Disk.node_put, Disk.node_blank] at h
    split at h
    · obtain rfl := Node.file.inj (Option.some.inj h)
      decide
    · split at h
      · simp at h
      · simp at h

def updateA : Op := .update (utf8 "/a") [2]

def rewritten : Host :=
  { aloneBelow with fs := ((updateA.apply (utf8 "/s") [] oneBelow).get (by decide)) }

theorem rewritten_served : Served (utf8 "/s") [] 4096 rewritten := by
  have hkeeps : Keeps (utf8 "/s") [] aloneBelow updateA :=
    ⟨[nameS], [nameA], by decide, by decide, by decide, by decide, by decide⟩
  have hnext : (host (utf8 "/s") []).next aloneBelow updateA = some rewritten := by
    rw [host, aloneBelow, rewritten, Option.map_eq_some_iff]
    exact ⟨_, (Option.some_get _).symm, rfl⟩
  exact (joiners_served _ [] 4096 _ _ aloneBelow_start aloneBelow_begins
    (.single ⟨updateA, hkeeps, hnext⟩)).1

def JoinersServed : Prop := ∀ basePath cwd dirSize s₀ s, (host basePath cwd).start s₀ →
  Begins basePath cwd s₀ → (host basePath cwd).Path₀ (fun _ op => op.Named) s₀ s →
  Served basePath cwd dirSize s

def deleteA : Op := .delete (utf8 "/a")

/-- The file is deleted; the next client makes the server exit. -/
theorem deleted_exits : ¬ JoinersServed := by
  intro h
  have hserved := h (utf8 "/s") [] 4096 aloneBelow
    { aloneBelow with fs := handleDelete (utf8 "/s") [] oneBelow (utf8 "/a") } aloneBelow_start
    aloneBelow_begins (.single ⟨deleteA, ⟨[nameA], by decide, by decide⟩, rfl⟩)
  have hexit : (Frames.sendFile (Host.requests { aloneBelow with
      fs := handleDelete (utf8 "/s") [] oneBelow (utf8 "/a") } [] 4096)).2 = .exited := by
    decide +kernel
  rw [hserved.completes] at hexit
  contradiction

end AdvancedCProjects.Bibak
