import AdvancedCProjects.Bibak.Paths

/-!
# The handlers on the server's disk (BibakBOXServer.c:65-106, 223-377)

What a message does once it is read. `none` is `exit`, or a write past a buffer.
-/

namespace AdvancedCProjects.Bibak
open Base

/-- An error is reported and ends the program. -/
def orExit : Except Errno FileSystem → Option FileSystem
  | .ok fs => some fs
  | .error _ => none

def tokens (path : Path) : List Bytes := (path.splitOn slash).filter (· ≠ [])

/-- The loop of `create_folder_structure`. -/
def createFolders (cwd : List FileName) : FileSystem → Path → List Bytes → Option FileSystem
  | fs, _, [] => some fs
  | fs, currentPath, token :: rest =>
    let path := currentPath ++ token
    match stat fs cwd path with
    | none =>
      match (resolve fs cwd path).bind fs.mkdir with
      | .ok fs => createFolders cwd fs (path ++ [slash]) rest
      | .error _ => none
    | some (.file _) => none
    | some .dir => createFolders cwd fs (path ++ [slash]) rest

def createFolderStructure (cwd : List FileName) (fs : FileSystem) (path : Path) :
    Option FileSystem :=
  createFolders cwd fs [slash] (tokens path)

def handleCreate (basePath : Path) (cwd : List FileName) (fs : FileSystem) (fileName : Path) :
    Option FileSystem :=
  let result := basePath ++ fileName
  let temp := lastComponent result
  if createOverflows result then none
  else if dot ∈ temp then
    (createFolderStructure cwd fs (result.take (result.length - temp.length))).bind fun fs =>
      orExit (writeFile fs cwd result [])
  else createFolderStructure cwd fs result

def handleUpdate (basePath : Path) (cwd : List FileName) (fs : FileSystem) (fileName : Path)
    (data : Bytes) : Option FileSystem :=
  orExit (writeFile fs cwd (basePath ++ fileName) data)

/-- That `remove` fails is reported and nothing else. -/
def handleDelete (basePath : Path) (cwd : List FileName) (fs : FileSystem) (fileName : Path) :
    FileSystem :=
  match (resolve fs cwd (basePath ++ fileName)).bind fs.remove with
  | .ok fs => fs
  | .error _ => fs

def Op.apply (basePath : Path) (cwd : List FileName) (fs : FileSystem) : Op → Option FileSystem
  | .create path => handleCreate basePath cwd fs path
  | .update path data => handleUpdate basePath cwd fs path data
  | .delete path => some (handleDelete basePath cwd fs path)

/-! ### Folders -/

def currentPath (ts : List Bytes) : Path := slash :: ts.flatMap (· ++ [slash])

theorem component_nil : component [] = .here := by
  rw [component, dif_neg (by decide), if_neg (by decide)]

section Folders
variable {fs fs' : FileSystem} {cwd p r : List FileName} {basePath : Path} {ts us vs : List Bytes}
  {t : Bytes}

theorem currentPath_snoc (ts : List Bytes) (t : Bytes) :
    currentPath (ts ++ [t]) = currentPath ts ++ t ++ [slash] := by
  simp [currentPath]

theorem splitOn_currentPath (hts : ∀ t ∈ ts, slash ∉ t) (ht : slash ∉ t) :
    (currentPath ts ++ t).splitOn slash = [] :: (ts ++ [t]) := by
  induction ts using List.reverseRecOn generalizing t with
  | nil =>
    have hsplit := List.splitOn_append_cons_self (a := slash) [] t
    rw [List.splitOn_nil, List.splitOn_eq_singleton ht] at hsplit
    simpa [currentPath] using hsplit
  | append_singleton ts u ih =>
    have hu : slash ∉ u := hts u (by simp)
    rw [currentPath_snoc, List.append_assoc, List.singleton_append,
      List.splitOn_append_cons_self, ih (fun t ht => hts t (by simp [ht])) hu,
      List.splitOn_eq_singleton ht]
    simp

theorem resolve_currentPath (hts : ∀ t ∈ ts, slash ∉ t) (ht : slash ∉ t) :
    resolve fs cwd (currentPath ts ++ t) = fs.walk [] ((ts ++ [t]).map component) := by
  have hhead : (currentPath ts ++ t).head? = some slash := rfl
  rw [resolve, if_neg (by simp [currentPath]), splitOn_currentPath hts ht, if_pos hhead,
    List.map_cons, component_nil, Disk.walk, fs.node_root]
  rfl

theorem createFolders_pass (ts us vs : List Bytes) (hts : ∀ t ∈ ts ++ us, slash ∉ t)
    (hwalk : fs.walk [] ((ts ++ us).map component) = .ok p) (hdir : fs.node p = some .dir) :
    createFolders cwd fs (currentPath ts) (us ++ vs)
      = createFolders cwd fs (currentPath (ts ++ us)) vs := by
  induction us generalizing ts with
  | nil => simp
  | cons u us ih =>
    rw [List.append_cons] at hwalk hts ⊢
    have hfront : ∃ m, fs.walk [] ((ts ++ [u]).map component) = .ok m ∧ fs.node m = some .dir := by
      rw [List.map_append] at hwalk
      exact fs.walk_split hwalk hdir
    obtain ⟨m, hm, hmdir⟩ := hfront
    have hfrontslash : ∀ t ∈ ts, slash ∉ t := fun t ht => hts t (by simp [ht])
    have hstat : stat fs cwd (currentPath ts ++ u) = some .dir := by
      simp only [stat, resolve_currentPath hfrontslash (hts u (by simp)), hm, hmdir]
    rw [List.cons_append, createFolders]
    simp only [hstat]
    rw [← currentPath_snoc, ih _ hts hwalk]

/-- Going down from an existing folder, the missing ones are made and the others kept. -/
theorem createFolders_down (hts : ∀ t ∈ ts, slash ∉ t)
    (hwalk : fs.walk [] (ts.map component) = .ok p) (hdir : fs.node p = some .dir)
    (h : createFolders cwd fs (currentPath ts) (r.map Subtype.val) = some fs') :
    (∀ q, fs.node q ≠ none → fs'.node q = fs.node q) ∧ fs'.node (p ++ r) = some .dir := by
  induction r generalizing fs ts p with
  | nil =>
    obtain rfl := Option.some.inj h
    exact ⟨fun _ _ => rfl, by simpa using hdir⟩
  | cons n r ih =>
    have hnslash : ∀ t ∈ ts ++ [n.val], slash ∉ t := by
      intro t ht
      rcases List.mem_append.mp ht with ht | ht
      · exact hts t ht
      · rw [List.mem_singleton.mp ht]
        exact n.no_slash
    have hdown (d : FileSystem) (hd : d.walk [] (ts.map component) = .ok p)
        (hp : d.node p = some .dir) :
        d.walk [] ((ts ++ [n.val]).map component) = .ok (p ++ [n]) := by
      rw [List.map_append, Disk.walk_append, hd, List.map_singleton, component_name]
      exact d.walk_down (r := [n]) (.inr (by simpa using hp))
    have hpath : resolve fs cwd (currentPath ts ++ n.val) = .ok (p ++ [n]) := by
      rw [resolve_currentPath hts n.no_slash, hdown fs hwalk hdir]
    simp only [List.map_cons, createFolders, stat, hpath, Except.bind] at h
    rw [← currentPath_snoc] at h
    cases hn : fs.node (p ++ [n]) with
    | none =>
      simp only [hn] at h
      cases hmkdir : fs.mkdir (p ++ [n]) with
      | error e => simp [hmkdir] at h
      | ok made =>
        obtain ⟨-, hnode⟩ := fs.mkdir_ok hmkdir
        simp only [hmkdir] at h
        have hkeep (q : List FileName) (hq : fs.node q ≠ none) : made.node q = fs.node q := by
          rw [hnode, if_neg fun heq : q = p ++ [n] => hq (heq ▸ hn)]
        have hwalk' : made.walk [] (ts.map component) = .ok p := by
          refine Disk.walk_mono (fun q hq => ?_) hwalk
          rw [hkeep q (by simp [hq]), hq]
        have hp : made.node p = some .dir := by rw [hkeep p (by simp [hdir]), hdir]
        obtain ⟨hrest, hend⟩ := ih hnslash (hdown made hwalk' hp) (by simp [hnode]) h
        refine ⟨fun q hq => ?_, by simpa using hend⟩
        rw [hrest q (by rw [hkeep q hq]; exact hq), hkeep q hq]
    | some x =>
      cases x with
      | file content => simp [hn] at h
      | dir =>
        simp only [hn] at h
        obtain ⟨hrest, hend⟩ := ih hnslash (hdown fs hwalk hdir) hn h
        exact ⟨hrest, by simpa using hend⟩

theorem splitOn_no_slash (path : Path) : ∀ t ∈ path.splitOn slash, slash ∉ t := by
  induction path with
  | nil => simp
  | cons b path ih =>
    intro t ht
    rw [List.splitOn_cons_eq_if_modifyHead] at ht
    split at ht
    · rcases List.mem_cons.mp ht with rfl | ht
      · exact List.not_mem_nil
      · exact ih t ht
    · next hb =>
      cases hsplit : path.splitOn slash with
      | nil => exact absurd hsplit (List.splitOn_ne_nil _ _)
      | cons u us =>
        rw [hsplit] at ih ht
        rcases List.mem_cons.mp ht with rfl | ht
        · have hu := ih u List.mem_cons_self
          have hb : slash ≠ b := fun heq => hb (by simp [heq])
          simp [hu, hb]
        · exact ih t (List.mem_cons_of_mem _ ht)

theorem tokens_no_slash (path : Path) : ∀ t ∈ tokens path, slash ∉ t :=
  fun t ht => splitOn_no_slash path t (List.mem_of_mem_filter ht)

theorem tokens_below (path : Path) : tokens (path ++ relativePath r)
    = tokens path ++ r.map Subtype.val := by
  have hnames : (r.map Subtype.val).filter (· ≠ []) = r.map Subtype.val := by
    refine List.filter_eq_self.mpr fun c hc => ?_
    obtain ⟨n, _, rfl⟩ := List.mem_map.mp hc
    simpa using n.property.1.1
  rw [tokens, splitOn_below, List.filter_append, hnames, tokens]

theorem tokens_slash (path : Path) : tokens (path ++ [slash]) = tokens path := by
  rw [tokens, List.splitOn_append_cons_self]
  simp [tokens]

theorem walk_tokens (habs : basePath.head? = some slash)
    (hbase : resolve fs cwd basePath = .ok p) :
    fs.walk [] ((tokens basePath).map component) = .ok p := by
  rw [resolve, if_neg (resolve_ne_nil hbase), if_pos habs] at hbase
  refine fs.walk_filter (fun c hc => ?_) hbase
  obtain rfl : c = [] := by simpa using hc
  exact component_nil

theorem createFolderStructure_below (habs : basePath.head? = some slash)
    (hbase : resolve fs cwd basePath = .ok p) (hdir : fs.node p = some .dir) {path : Path}
    (hpath : tokens path = tokens basePath ++ r.map Subtype.val)
    (h : createFolderStructure cwd fs path = some fs') :
    (∀ q, fs.node q ≠ none → fs'.node q = fs.node q) ∧ fs'.node (p ++ r) = some .dir ∧
      (fs.node (p ++ r) = some .dir → fs' = fs) := by
  have hwalk := walk_tokens habs hbase
  have hslash := tokens_no_slash basePath
  rw [createFolderStructure, hpath] at h
  have hpass : createFolders cwd fs [slash] (tokens basePath ++ r.map Subtype.val)
      = createFolders cwd fs (currentPath (tokens basePath)) (r.map Subtype.val) :=
    createFolders_pass [] _ _ hslash hwalk hdir
  rw [hpass] at h
  obtain ⟨hkeep, hend⟩ := createFolders_down hslash hwalk hdir h
  refine ⟨hkeep, hend, fun hthere => ?_⟩
  have hall : ∀ t ∈ tokens basePath ++ r.map Subtype.val, slash ∉ t := by
    rw [← tokens_below]
    exact tokens_no_slash _
  have hwalkr : fs.walk [] ((tokens basePath ++ r.map Subtype.val).map component)
      = .ok (p ++ r) := by
    rw [List.map_append, Disk.walk_append, hwalk, component_names]
    refine fs.walk_down ?_
    by_cases hr : r = []
    · exact .inl hr
    · have hparent := fs.node_dropLast (p := p ++ r) (by simp [hthere])
      rw [List.dropLast_append_of_ne_nil hr] at hparent
      exact .inr hparent
  have hnothing : createFolders cwd fs (currentPath (tokens basePath)) (r.map Subtype.val ++ [])
      = some fs := createFolders_pass _ _ [] hall hwalkr hthere
  rw [List.append_nil, h] at hnothing
  exact Option.some.inj hnothing

end Folders

/-! ### What a message does below the base directory -/

/-- CREATE makes a file of a name with a dot and a folder of a name without. -/
def createdNode (n : FileName) : Node Bytes := if dot ∈ n.val then .file [] else .dir

theorem orExit_some {result : Except Errno FileSystem} {fs : FileSystem}
    (h : orExit result = some fs) : result = .ok fs := by
  cases result with
  | ok made => rw [Option.some.inj h]
  | error e => contradiction

section Messages
variable {fs fs' : FileSystem} {cwd p r : List FileName} {basePath path : Path} {n : FileName}

theorem lastComponent_below : lastComponent (path ++ slash :: n.val) = n.val := by
  have hall : ∀ b ∈ n.val.reverse, decide (b ≠ slash) = true := by
    intro b hb
    exact decide_eq_true fun heq => n.no_slash (heq ▸ List.mem_reverse.mp hb)
  rw [lastComponent, List.reverse_append, List.reverse_cons, List.append_assoc,
    List.takeWhile_append_of_pos hall]
  simp

theorem relativePath_snoc : relativePath (r ++ [n]) = relativePath r ++ slash :: n.val := by
  simp [relativePath]

theorem call_below {call : List FileName → Except Errno FileSystem}
    (hbase : resolve fs cwd basePath = .ok p)
    (h : (resolve fs cwd (basePath ++ relativePath r)).bind call = .ok fs') :
    call (p ++ r) = .ok fs' := by
  rw [resolve_append hbase] at h
  cases hwalk : fs.walk p (r.map .down) with
  | error e =>
    rw [hwalk] at h
    contradiction
  | ok q =>
    rw [hwalk, fs.walk_down_eq hwalk] at h
    exact h

theorem handleUpdate_below {data : Bytes} (hbase : resolve fs cwd basePath = .ok p)
    (h : handleUpdate basePath cwd fs (relativePath r) data = some fs') :
    fs.node (p ++ r) ≠ some .dir ∧
      ∀ q, fs'.node q = if q = p ++ r then some (.file data) else fs.node q :=
  fs.save_ok (call_below hbase (orExit_some h))

theorem handleDelete_below (hbase : resolve fs cwd basePath = .ok p) :
    handleDelete basePath cwd fs (relativePath r) = fs ∨
      fs.node (p ++ r) ≠ none ∧ fs.children (p ++ r) = [] ∧
        ∀ q, (handleDelete basePath cwd fs (relativePath r)).node q
          = if q = p ++ r then none else fs.node q := by
  unfold handleDelete
  split
  · next removed hremove => exact .inr (fs.remove_ok (call_below hbase hremove))
  · exact .inl rfl

theorem handleDelete_removes (hbase : resolve fs cwd basePath = .ok p) (hr : r ≠ [])
    (hnode : fs.node (p ++ r) ≠ none) (hempty : fs.children (p ++ r) = []) (q : List FileName) :
    (handleDelete basePath cwd fs (relativePath r)).node q
      = if q = p ++ r then none else fs.node q := by
  obtain ⟨removed, hremove, hremoved⟩ :=
    fs.remove_empty hnode (List.append_ne_nil_of_right_ne_nil p hr) hempty
  simp only [handleDelete, resolve_there hbase hnode, Except.bind, hremove]
  exact hremoved q

theorem lastComponent_result :
    lastComponent (basePath ++ relativePath (r ++ [n])) = n.val := by
  rw [relativePath_snoc, ← List.append_assoc, lastComponent_below]

theorem handleCreate_folder (hdot : dot ∉ n.val) :
    handleCreate basePath cwd fs (relativePath (r ++ [n])) =
      if createOverflows (basePath ++ relativePath (r ++ [n])) then none
      else createFolderStructure cwd fs (basePath ++ relativePath (r ++ [n])) := by
  simp only [handleCreate, lastComponent_result, hdot, if_false]

theorem handleCreate_file (hdot : dot ∈ n.val) :
    handleCreate basePath cwd fs (relativePath (r ++ [n])) =
      if createOverflows (basePath ++ relativePath (r ++ [n])) then none
      else (createFolderStructure cwd fs (basePath ++ relativePath r ++ [slash])).bind fun fs =>
        orExit (writeFile fs cwd (basePath ++ relativePath (r ++ [n])) []) := by
  have hfolder : (basePath ++ relativePath (r ++ [n])).take
      ((basePath ++ relativePath (r ++ [n])).length - n.val.length)
        = basePath ++ relativePath r ++ [slash] := by
    have hsplit : basePath ++ relativePath (r ++ [n])
        = (basePath ++ relativePath r ++ [slash]) ++ n.val := by
      rw [relativePath_snoc]
      simp
    rw [hsplit, List.length_append, Nat.add_sub_cancel, List.take_left]
  simp only [handleCreate, lastComponent_result, hfolder, hdot, if_true]

theorem createFolder_below (habs : basePath.head? = some slash)
    (hbase : resolve fs cwd basePath = .ok p) (hdir : fs.node p = some .dir) (hdot : dot ∉ n.val)
    (h : handleCreate basePath cwd fs (relativePath (r ++ [n])) = some fs') :
    (∀ q, fs.node q ≠ none → fs'.node q = fs.node q) ∧
      fs'.node (p ++ (r ++ [n])) = some .dir ∧ (fs.node (p ++ (r ++ [n])) ≠ none → fs' = fs) := by
  rw [handleCreate_folder hdot] at h
  split at h
  · contradiction
  · obtain ⟨hkeep, hend, hsame⟩ :=
      createFolderStructure_below habs hbase hdir (tokens_below basePath) h
    refine ⟨hkeep, hend, fun hthere => hsame ?_⟩
    rw [← hkeep _ hthere, hend]

theorem createFile_below (habs : basePath.head? = some slash)
    (hbase : resolve fs cwd basePath = .ok p) (hdir : fs.node p = some .dir) (hdot : dot ∈ n.val)
    (h : handleCreate basePath cwd fs (relativePath (r ++ [n])) = some fs') :
    ∃ made : FileSystem, (∀ q, fs.node q ≠ none → made.node q = fs.node q) ∧
      (fs.node (p ++ (r ++ [n])) ≠ none → made = fs) ∧ made.node (p ++ (r ++ [n])) ≠ some .dir ∧
      ∀ q, fs'.node q = if q = p ++ (r ++ [n]) then some (.file []) else made.node q := by
  have htokens : tokens (basePath ++ relativePath r ++ [slash])
      = tokens basePath ++ r.map Subtype.val := by
    rw [tokens_slash, tokens_below]
  rw [handleCreate_file hdot] at h
  split at h
  · contradiction
  · obtain ⟨made, hmade, hwrite⟩ := Option.bind_eq_some_iff.mp h
    obtain ⟨hkeep, -, hsame⟩ := createFolderStructure_below habs hbase hdir htokens hmade
    have hbase' : resolve made cwd basePath = .ok p := by
      refine resolve_mono (fun q hq => ?_) hbase
      rw [hkeep q (by simp [hq]), hq]
    obtain ⟨hno, hnode⟩ := made.save_ok (call_below hbase' (orExit_some hwrite))
    refine ⟨made, hkeep, fun hthere => hsame ?_, hno, hnode⟩
    have hparent := fs.node_dropLast hthere
    rwa [← List.append_assoc, List.dropLast_concat] at hparent

theorem handleCreate_below (habs : basePath.head? = some slash)
    (hbase : resolve fs cwd basePath = .ok p) (hdir : fs.node p = some .dir)
    (h : handleCreate basePath cwd fs (relativePath (r ++ [n])) = some fs') :
    (∀ q, fs.node q ≠ none → (fs'.node q).map emptied = (fs.node q).map emptied) ∧
      fs'.node (p ++ (r ++ [n])) = some (createdNode n) ∧
      (fs.node (p ++ (r ++ [n])) ≠ none → ∀ q,
        fs'.node q = if q = p ++ (r ++ [n]) then some (createdNode n) else fs.node q) := by
  by_cases hdot : dot ∈ n.val
  · obtain ⟨made, hkeep, hsame, hno, hnode⟩ := createFile_below habs hbase hdir hdot h
    rw [createdNode, if_pos hdot]
    refine ⟨fun q hq => ?_, by rw [hnode, if_pos rfl], fun hthere q => ?_⟩
    · rw [hnode]
      split
      · next heq =>
        -- the file was there and is now empty
        subst heq
        rw [hkeep _ hq] at hno
        cases hx : fs.node (p ++ (r ++ [n])) with
        | none => exact (hq hx).elim
        | some x =>
          cases x with
          | dir => exact (hno hx).elim
          | file content => rfl
      · rw [hkeep q hq]
    · rw [hnode, hsame hthere]
  · obtain ⟨hkeep, hend, hsame⟩ := createFolder_below habs hbase hdir hdot h
    rw [createdNode, if_neg hdot]
    refine ⟨fun q hq => by rw [hkeep q hq], hend, fun hthere q => ?_⟩
    split
    · next heq => rw [heq, hend]
    · rw [hsame hthere]

end Messages
end AdvancedCProjects.Bibak
