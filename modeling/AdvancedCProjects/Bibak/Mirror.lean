import AdvancedCProjects.Base.Lists
import AdvancedCProjects.Bibak.Paths
import AdvancedCProjects.Bibak.Sync

/-!
# Mirroring a tree (BibakBOXServer.c:107-150, BibakBOXClient.c:486-504, 568-610)

The server lists its directory, a sub-list behind the entry of its directory;
the client walks through the list it received and makes what it names.
-/

namespace AdvancedCProjects.Bibak
open Base

/-! ### The server -/

/-- One round of the loop of `getDirectoryContents`; `sub` lists a directory. -/
def listEntry (fs : FileSystem) (cwd : List FileName) (sub : Path → Option (List FilePath))
    (directoryPath : Path) (contents : List FilePath) (n : Name) : Option (List FilePath) :=
  if n = [dot] ∨ n = [dot, dot] then some contents
  else
    let path := joinPath directoryPath n
    match stat fs cwd path with
    | none => some contents
    | some (.file _) => some (contents ++ [.ofPath path true])
    | some .dir => (sub path).map fun subContents => contents ++ .ofPath path false :: subContents

/-- `none` when the recursion has not come to its end. -/
def getDirectoryContents (fs : FileSystem) (cwd : List FileName) :
    ℕ → Path → Option (List FilePath)
  | 0, _ => none
  | fuel + 1, directoryPath =>
    match opendir fs cwd directoryPath with
    | none => some []
    | some names =>
      names.foldlM (listEntry fs cwd (getDirectoryContents fs cwd fuel) directoryPath) []

/-! ### The client -/

/-- `newPaths`; the pointers behind `arraySize` mean nothing. -/
structure StringArray where
  strings : List Path
  arrayCapacity : ℕ
  room : strings.length ≤ arrayCapacity
  positive : 0 < arrayCapacity

namespace StringArray

def empty : StringArray := ⟨[], 5, by decide, by decide⟩

def arraySize (a : StringArray) : ℕ := a.strings.length

/-- The capacity after the test that the array is full. -/
def grown (a : StringArray) : ℕ :=
  if a.arraySize = a.arrayCapacity then a.arrayCapacity * 2 else a.arrayCapacity

theorem arraySize_lt_grown (a : StringArray) : a.arraySize < a.grown := by
  have hroom : a.arraySize ≤ a.arrayCapacity := a.room
  have hpositive := a.positive
  unfold grown
  split <;> omega

def addStringToArray (a : StringArray) (str : Path) : StringArray where
  strings := a.strings ++ [str]
  arrayCapacity := a.grown
  room := by
    have hlt : a.strings.length < a.grown := a.arraySize_lt_grown
    rwa [List.length_append, List.length_singleton]
  positive := by
    have hlt := a.arraySize_lt_grown
    omega

end StringArray

structure Mirror where
  fs : FileSystem
  newPaths : StringArray
  errors : List (Path × Errno)

def createDirectory (fs : FileSystem) (cwd : List FileName) (path : Path) :
    Except Errno FileSystem :=
  match (resolve fs cwd path).bind fs.mkdir with
  | .error .alreadyExists => .ok fs
  | result => result

def Mirror.made (m : Mirror) (path : Path) : Except Errno FileSystem → Mirror
  | .ok fs => { m with fs := fs }
  | .error e => { m with errors := m.errors ++ [(path, e)] }

/-- One round of the loop of `createSameDirectoryStructure`. -/
def mirrorEntry (cwd : List FileName) (sourceDirectory destinationDirectory : Path) (m : Mirror)
    (e : FilePath) : Mirror :=
  let destinationPath := destinationPath sourceDirectory destinationDirectory e
  if e.isFile ≠ 0 then
    { m with newPaths := m.newPaths.addStringToArray destinationPath }.made destinationPath
      (writeFile m.fs cwd destinationPath [])
  else m.made destinationPath (createDirectory m.fs cwd destinationPath)

def createSameDirectoryStructure (cwd : List FileName) (sourceDirectory destinationDirectory : Path)
    (contents : List FilePath) (m : Mirror) : Mirror :=
  contents.foldl (mirrorEntry cwd sourceDirectory destinationDirectory) m

/-! ### The listing -/

def isFile : Option (Node Bytes) → Bool
  | some (.file _) => true
  | _ => false

/-- The entry for what stands below `path` under the names `r`. -/
def entryAt (fs : FileSystem) (p : List FileName) (path : Path) (r : List FileName) : FilePath :=
  .ofPath (path ++ relativePath r) (isFile (fs.node (p ++ r)))

/-- Everything below a directory has a path that fits the buffers with its terminator. -/
def FitsBelow (fs : FileSystem) (p : List FileName) (path : Path) : Prop :=
  ∀ r, r ≠ [] → fs.node (p ++ r) ≠ none → (path ++ relativePath r).length < maxPathLength

section Listing
variable {fs : FileSystem} {cwd p r : List FileName} {path : Path}

theorem FitsBelow.sub (h : FitsBelow fs p path) (n : FileName) :
    FitsBelow fs (p ++ [n]) (path ++ relativePath [n]) := by
  intro r _ hr
  rw [List.append_assoc] at hr
  simpa using h (n :: r) (List.cons_ne_nil _ _) hr

theorem opendir_dir (h : resolve fs cwd path = .ok p) (hdir : fs.node p = some .dir) :
    opendir fs cwd path = some ([dot] :: [dot, dot] :: (fs.children p).map Subtype.val) := by
  simp only [opendir, h, if_pos hdir]

theorem listEntry_child {fuel : ℕ} (h : resolve fs cwd path = .ok p) (hfit : FitsBelow fs p path)
    {n : FileName} (hn : n ∈ fs.children p)
    (hsub : fs.node (p ++ [n]) = some .dir →
      getDirectoryContents fs cwd fuel (path ++ relativePath [n])
        = some ((fs.below fuel (p ++ [n])).map (entryAt fs (p ++ [n]) (path ++ relativePath [n]))))
    (contents : List FilePath) :
    listEntry fs cwd (getDirectoryContents fs cwd fuel) path contents n.val
      = some (contents ++
        ([n] :: (fs.below fuel (p ++ [n])).map (n :: ·)).map (entryAt fs p path)) := by
  have hnode := fs.mem_children.mp hn
  have hlen := hfit [n] (List.cons_ne_nil _ _) hnode
  have hjoin : joinPath path n.val = path ++ relativePath [n] := by
    simpa using Listing.joinPath_of_fits (d := path) (n := n.val) (by simpa using hlen)
  have hentry (r : List FileName) :
      entryAt fs p path (n :: r) = entryAt fs (p ++ [n]) (path ++ relativePath [n]) r := by
    simp [entryAt]
  rw [listEntry, if_neg (not_or.mpr n.property.2), hjoin]
  simp only [stat_below h hnode]
  cases hx : fs.node (p ++ [n]) with
  | none => exact (hnode hx).elim
  | some x =>
    cases x with
    | file content => simp [fs.below_file hx, entryAt, isFile, hx]
    | dir =>
      simp only [hsub hx, Option.map_some, List.map_cons, List.map_map]
      congr 2
      refine congrArg₂ List.cons (by simp [entryAt, isFile, hx]) ?_
      exact List.map_congr_left fun r _ => (hentry r).symm

theorem listEntry_skip {sub : Path → Option (List FilePath)} {n : Name}
    (hn : n = [dot] ∨ n = [dot, dot]) (contents : List FilePath) :
    listEntry fs cwd sub path contents n = some contents := by
  rw [listEntry, if_pos hn]

theorem getDirectoryContents_eq (fuel : ℕ) (h : resolve fs cwd path = .ok p)
    (hdir : fs.node p = some .dir) (hfit : FitsBelow fs p path)
    (hfuel : fs.depth < p.length + fuel) : getDirectoryContents fs cwd fuel path
      = some ((fs.below fuel p).map (entryAt fs p path)) := by
  induction fuel generalizing p path with
  | zero =>
    have hlen := fs.length_le_depth (p := p) (by simp [hdir])
    omega
  | succ fuel ih =>
    have hround : ∀ n ∈ fs.children p, ∀ contents,
        listEntry fs cwd (getDirectoryContents fs cwd fuel) path contents n.val = some (contents ++
          ([n] :: (fs.below fuel (p ++ [n])).map (n :: ·)).map (entryAt fs p path)) := by
      intro n hn
      refine listEntry_child h hfit hn fun hsub => ih ?_ hsub (hfit.sub n) ?_
      · exact resolve_below h (.inr (by simpa using hdir))
      · rw [List.length_append, List.length_singleton]
        omega
    have hloop := foldlM_append (fs.children p) hround []
    simp only [getDirectoryContents, opendir_dir h hdir, List.foldlM_cons,
      listEntry_skip (.inl rfl), listEntry_skip (.inr rfl), Option.bind_eq_bind, Option.bind_some,
      List.foldlM_map]
    rw [hloop, Disk.below, List.map_flatMap, List.nil_append]

theorem getDirectoryContents_mono {contents : List FilePath} {fuel fuel' : ℕ} (hle : fuel ≤ fuel')
    (h : getDirectoryContents fs cwd fuel path = some contents) :
    getDirectoryContents fs cwd fuel' path = some contents := by
  induction fuel generalizing fuel' path contents with
  | zero => contradiction
  | succ fuel ih =>
    obtain ⟨fuel', rfl⟩ : ∃ k, fuel' = k + 1 := ⟨fuel' - 1, by omega⟩
    unfold getDirectoryContents at h ⊢
    cases hopen : opendir fs cwd path with
    | none => simpa [hopen] using h
    | some names =>
      simp only [hopen] at h ⊢
      refine foldlM_mono (fun done n result hround => ?_) h
      unfold listEntry at hround ⊢
      split
      · next hskip => simpa [hskip] using hround
      · next hskip =>
        simp only [hskip, if_false] at hround
        cases hstat : stat fs cwd (joinPath path n) with
        | none => simpa [hstat] using hround
        | some x =>
          cases x with
          | file content => simpa [hstat] using hround
          | dir =>
            simp only [hstat] at hround ⊢
            obtain ⟨sub, hsub, rfl⟩ := Option.map_eq_some_iff.mp hround
            rw [ih (by omega) hsub]
            rfl

end Listing

instance (fs : FileSystem) (p : List FileName) (path : Path) : Decidable (FitsBelow fs p path) :=
  have hlists := fs.below_lists (p := p) (fs.depth + 1) (by omega)
  decidable_of_iff (∀ r ∈ fs.below (fs.depth + 1) p,
      (path ++ relativePath r).length < maxPathLength)
    ⟨fun h r hr hnode => h r ((hlists.mem r).mpr ⟨hr, hnode⟩),
      fun h r hmem => h r ((hlists.mem r).mp hmem).1 ((hlists.mem r).mp hmem).2⟩

/-! ### The copy -/

section Copy
variable {src dst path : Path} {r : List FileName}

theorem no_zero (r : List FileName) : (0 : Byte) ∉ relativePath r := by
  induction r with
  | nil => exact List.not_mem_nil
  | cons n r ih =>
    have hn := n.property.1.2.2
    simp only [relativePath_cons, List.mem_append, List.mem_cons, not_or]
    exact ⟨⟨by decide, hn⟩, ih⟩

@[simp] theorem ofPath_isFile (isFile : Bool) :
    (FilePath.ofPath path isFile).isFile ≠ 0 ↔ isFile = true := by
  cases isFile <;> simp [FilePath.ofPath]

theorem ofPath_path (isFile : Bool) (h : path.length < maxPathLength) :
    (FilePath.ofPath path isFile).path
      = path ++ 0 :: List.replicate (maxPathLength - path.length - 1) 0 := by
  show (path ++ List.replicate maxPathLength 0).take maxPathLength = _
  rw [List.take_append, List.take_of_length_le h.le, List.take_replicate, ← List.replicate_succ]
  congr 2
  omega

theorem ofPath_bytes (isFile : Bool) (h : path.length < maxPathLength) :
    ∃ rest, (FilePath.ofPath path isFile).bytes = path ++ 0 :: rest := by
  refine ⟨List.replicate (maxPathLength - path.length - 1) 0 ++
    encodeInt 4 (FilePath.ofPath path isFile).isFile, ?_⟩
  rw [FilePath.bytes, ofPath_path isFile h, List.append_assoc, List.cons_append]

theorem destinationPath_below (isFile : Bool) (hr : r ≠ [])
    (hsrc : (src ++ relativePath r).length < maxPathLength)
    (hdst : (dst ++ relativePath r).length < maxPathLength) :
    destinationPath src dst (.ofPath (src ++ relativePath r) isFile) = dst ++ relativePath r := by
  cases r with
  | nil => contradiction
  | cons n r =>
    obtain ⟨rest, hbytes⟩ := ofPath_bytes isFile hsrc
    have hno : (0 : Byte) ∉ n.val ++ relativePath r := by
      have h := no_zero (n :: r)
      simp only [relativePath_cons, List.cons_append, List.mem_cons, not_or] at h
      exact h.2
    have hdrop : (src ++ relativePath (n :: r) ++ 0 :: rest).drop (src.length + 1)
        = (n.val ++ relativePath r) ++ 0 :: rest := by
      rw [← List.drop_drop]
      simp
    rw [destinationPath, hbytes, hdrop, cstr_append hno]
    exact List.take_of_length_le (Nat.le_sub_one_of_lt hdst)

end Copy

/-- The loop has been through the entries `done` of the server's directory `p`. -/
structure Copied (server : FileSystem) (p : List FileName) (client : FileSystem)
    (q : List FileName) (dst : Path) (done : List (List FileName)) (m : Mirror) : Prop where
  errors : m.errors = []
  beneath : ∀ r, r ≠ [] →
    m.fs.node (q ++ r) = if r ∈ done then (server.node (p ++ r)).map emptied else none
  outside : ∀ s, (∀ r, r ≠ [] → s ≠ q ++ r) → m.fs.node s = client.node s
  newPaths : m.newPaths.strings
    = (done.filter fun r => isFile (server.node (p ++ r))).map fun r => dst ++ relativePath r

section Loop
variable {server client : FileSystem} {cwd p q r : List FileName} {src dst : Path}
  {done : List (List FileName)} {m : Mirror}

theorem Copied.dirs (h : Copied server p client q dst done m) (hempty : client.children q = [])
    (s : List FileName) (hs : client.node s = some .dir) : m.fs.node s = some .dir := by
  rw [h.outside s ?_, hs]
  rintro r hr rfl
  rw [client.node_of_empty hempty hr] at hs
  contradiction

theorem Copied.parent (h : Copied server p client q dst done m) (hdir : client.node q = some .dir)
    (hnode : server.node (p ++ r) ≠ none) (hr : r ≠ [])
    (hdone : r.dropLast ≠ [] → r.dropLast ∈ done) :
    m.fs.node (q ++ r.dropLast) = some .dir := by
  by_cases hnil : r.dropLast = []
  · rw [hnil, List.append_nil, h.outside q ?_, hdir]
    intro s hs heq
    exact hs (List.append_right_eq_self.mp heq.symm)
  · have hsource := server.node_dropLast hnode
    rw [List.dropLast_append_of_ne_nil hr] at hsource
    rw [h.beneath _ hnil, if_pos (hdone hnil), hsource]
    rfl

theorem Copied.add (h : Copied server p client q dst done m) (hr : r ≠ []) {fs : FileSystem}
    {newPaths : StringArray}
    (hfs : ∀ s, fs.node s = if s = q ++ r then (server.node (p ++ r)).map emptied else m.fs.node s)
    (hpaths : newPaths.strings = m.newPaths.strings ++
      ([r].filter fun r => isFile (server.node (p ++ r))).map fun r => dst ++ relativePath r) :
    Copied server p client q dst (done ++ [r]) { m with fs := fs, newPaths := newPaths } where
  errors := h.errors
  beneath s hs := by
    rw [hfs]
    by_cases heq : s = r
    · simp [heq]
    · simp [heq, h.beneath s hs]
  outside s hs := by
    rw [hfs, if_neg (hs r hr), h.outside s hs]
  newPaths := by
    rw [hpaths, h.newPaths, List.filter_append, List.map_append]

theorem Copied.entry (h : Copied server p client q dst done m)
    (hdst : resolve client cwd dst = .ok q) (hdir : client.node q = some .dir)
    (hempty : client.children q = []) (hr : r ≠ []) (hnode : server.node (p ++ r) ≠ none)
    (hnew : r ∉ done) (hdone : r.dropLast ≠ [] → r.dropLast ∈ done)
    (hsrclen : (src ++ relativePath r).length < maxPathLength)
    (hdstlen : (dst ++ relativePath r).length < maxPathLength) :
    Copied server p client q dst (done ++ [r])
      (mirrorEntry cwd src dst m (entryAt server p src r)) := by
  have hparent := h.parent hdir hnode hr hdone
  have hpath : resolve m.fs cwd (dst ++ relativePath r) = .ok (q ++ r) :=
    resolve_below (resolve_mono (h.dirs hempty) hdst) (.inr hparent)
  have hfree : m.fs.node (q ++ r) = none := by
    rw [h.beneath r hr, if_neg hnew]
  have hdest := destinationPath_below (isFile (server.node (p ++ r))) hr hsrclen hdstlen
  rw [← List.dropLast_append_of_ne_nil hr] at hparent
  simp only [mirrorEntry, entryAt, hdest]
  cases hx : server.node (p ++ r) with
  | none => exact (hnode hx).elim
  | some x =>
    cases x with
    | file content =>
      obtain ⟨fs, hsave, hfs⟩ := m.fs.save_file [] (by simp [hfree]) hparent
      have hcall : writeFile m.fs cwd (dst ++ relativePath r) [] = .ok fs := by
        simp only [writeFile, hpath, Except.bind, hsave]
      simp only [isFile, ofPath_isFile, if_true, hcall]
      refine h.add hr ?_ ?_
      · simpa [hx, emptied] using hfs
      · simp [StringArray.addStringToArray, isFile, hx]
    | dir =>
      obtain ⟨fs, hmkdir, hfs⟩ := m.fs.mkdir_new hfree hparent
      have hcall : createDirectory m.fs cwd (dst ++ relativePath r) = .ok fs := by
        simp only [createDirectory, hpath, Except.bind, hmkdir]
      simp only [isFile, ofPath_isFile, Bool.false_eq_true, if_false, hcall]
      refine h.add hr ?_ ?_
      · simpa [hx, emptied] using hfs
      · simp [isFile, hx]

theorem Copied.loop {todo : List (List FileName)} (h : Copied server p client q dst done m)
    (hdst : resolve client cwd dst = .ok q) (hdir : client.node q = some .dir)
    (hempty : client.children q = []) (hlists : server.Lists p (done ++ todo))
    (hsrcfit : FitsBelow server p src)
    (hdstfit : FitsBelow server p dst) : Copied server p client q dst (done ++ todo)
      (createSameDirectoryStructure cwd src dst (todo.map (entryAt server p src)) m) := by
  induction todo generalizing done m with
  | nil => simpa [createSameDirectoryStructure] using h
  | cons r todo ih =>
    obtain ⟨hr, hnode⟩ := (hlists.mem r).mp (by simp)
    have hnew : r ∉ done := by
      intro hmem
      have hnodup := hlists.nodup
      exact (List.nodup_append.mp hnodup).2.2 r hmem r List.mem_cons_self rfl
    have hentry := h.entry hdst hdir hempty hr hnode hnew hlists.dropLast_mem
      (hsrcfit r hr hnode) (hdstfit r hr hnode)
    rw [List.append_cons] at hlists ⊢
    exact ih hentry hlists

end Loop

/-! ### The mirror -/

/-- `m` is the client after it has made the server's entries `keys` in `dst`. -/
structure Mirrored (server : FileSystem) (p : List FileName) (client : FileSystem)
    (q : List FileName) (dst : Path) (keys : List (List FileName)) (m : Mirror) : Prop where
  errors : m.errors = []
  beneath : ∀ r, m.fs.node (q ++ r) = (server.node (p ++ r)).map emptied
  outside : ∀ s, ¬ q <+: s → m.fs.node s = client.node s
  newPaths : m.newPaths.strings
    = (keys.filter fun r => isFile (server.node (p ++ r))).map fun r => dst ++ relativePath r

theorem Copied.mirrored {server client : FileSystem} {p q : List FileName} {dst : Path}
    {keys : List (List FileName)} {m : Mirror} (h : Copied server p client q dst keys m)
    (hlists : server.Lists p keys) (hp : server.node p = some .dir)
    (hq : client.node q = some .dir) : Mirrored server p client q dst keys m where
  errors := h.errors
  beneath r := by
    by_cases hr : r = []
    · rw [hr, List.append_nil, List.append_nil, hp, h.outside q ?_, hq]
      · rfl
      · intro s hs heq
        exact hs (List.append_right_eq_self.mp heq.symm)
    · rw [h.beneath r hr]
      split
      · rfl
      · next hno =>
        have hnone : server.node (p ++ r) = none := by
          by_contra hnode
          exact hno ((hlists.mem r).mpr ⟨hr, hnode⟩)
        rw [hnone]
        rfl
  outside s hs := h.outside s fun r _ heq => hs (heq ▸ List.prefix_append q r)
  newPaths := h.newPaths

def Mirror.init (client : FileSystem) : Mirror := ⟨client, .empty, []⟩

theorem made_newPaths (m : Mirror) (path : Path) (result : Except Errno FileSystem) :
    (m.made path result).newPaths = m.newPaths := by
  cases result <;> rfl

theorem newPaths_files (cwd : List FileName) (src dst : Path) (contents : List FilePath)
    (m : Mirror) : (createSameDirectoryStructure cwd src dst contents m).newPaths.strings
      = m.newPaths.strings ++ (files contents).map (destinationPath src dst) := by
  unfold createSameDirectoryStructure
  induction contents generalizing m with
  | nil => simp [files]
  | cons e contents ih =>
    rw [List.foldl_cons, ih]
    by_cases hfile : e.isFile = 0
    · simp [mirrorEntry, made_newPaths, files, hfile]
    · simp [mirrorEntry, made_newPaths, files, hfile, StringArray.addStringToArray]

/-- The server's list names every entry once, with its kind and behind its
directory; the client makes the same tree of it, and `newPaths` are the paths of
the files in the order of `sendFile`. -/
theorem tree_mirrored (server client : FileSystem) (serverCwd clientCwd p q : List FileName)
    (basePath dest : Path) (hbase : resolve server serverCwd basePath = .ok p)
    (hp : server.node p = some .dir) (hdest : resolve client clientCwd dest = .ok q)
    (hq : client.node q = some .dir) (hempty : client.children q = [])
    (hfitBase : FitsBelow server p basePath) (hfitDest : FitsBelow server p dest) :
    ∃ keys, server.Lists p keys ∧
      let contents := keys.map (entryAt server p basePath)
      let m := createSameDirectoryStructure clientCwd basePath dest contents (.init client)
      (∀ fuel, server.depth < fuel →
        getDirectoryContents server serverCwd fuel basePath = some contents) ∧
      Mirrored server p client q dest keys m ∧
      ∀ read, m.newPaths.strings = (copies basePath dest read (files contents)).map Prod.fst ∧
        sendFile read contents
          = (copies basePath dest read (files contents)).flatMap fun copy => fileBytes copy.2 := by
  have hlists : server.Lists p (server.below (server.depth + 1) p) :=
    server.below_lists _ (by omega)
  refine ⟨_, hlists, fun fuel hfuel => ?_, ?_, fun read => ⟨?_, ?_⟩⟩
  · rw [getDirectoryContents_eq fuel hbase hp hfitBase (by omega),
      server.below_stable hfuel (by omega)]
  · have hstart : Copied server p client q dest [] (.init client) := by
      refine ⟨rfl, fun r hr => ?_, fun _ _ => rfl, rfl⟩
      exact client.node_of_empty hempty hr
    exact (hstart.loop hdest hq hempty hlists hfitBase hfitDest).mirrored hlists hp hq
  · rw [newPaths_files]
    simp [Mirror.init, StringArray.empty, copies]
  · simp [sendFile, copies, files, List.flatMap_map]

def nameS : FileName := ⟨utf8 "s", by decide⟩
def nameA : FileName := ⟨utf8 "a", by decide⟩

def oneBelow : FileSystem :=
  (Disk.blank.put [nameS] .dir (by decide) (by decide)).put [nameS, nameA] (.file [1])
    (by decide) (by decide)

def nameB : FileName := ⟨utf8 "b", by decide⟩
def nameD : FileName := ⟨utf8 "d", by decide⟩
def nameE : FileName := ⟨utf8 "e", by decide⟩

/-- `/s` with the file `a`, the directory `d`, in which there is a file `b`, and the empty
directory `e`. -/
def treeBelow : FileSystem :=
  ((oneBelow.put [nameS, nameD] .dir (by decide) (by decide)).put [nameS, nameD, nameB] (.file [2])
    (by decide) (by decide)).put [nameS, nameE] .dir (by decide) (by decide)

theorem treeBelow_mirrored : ∃ keys, treeBelow.Lists [nameS] keys ∧
    Mirrored treeBelow [nameS] .blank [] (utf8 "/") keys
      (createSameDirectoryStructure [] (utf8 "s/") (utf8 "/")
        (keys.map (entryAt treeBelow [nameS] (utf8 "s/"))) (.init .blank)) := by
  obtain ⟨keys, hlists, -, hmirrored, -⟩ := tree_mirrored treeBelow .blank [] [] [nameS] []
    (utf8 "s/") (utf8 "/") (by decide) (by decide) (by decide) (by decide) (by decide) (by decide)
    (by decide)
  exact ⟨keys, hlists, hmirrored⟩

end AdvancedCProjects.Bibak
