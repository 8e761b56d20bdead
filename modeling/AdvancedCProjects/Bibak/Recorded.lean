import AdvancedCProjects.Bibak.Walk

/-!
# What the client records (BibakBOXClient.c:50-122, 582-592, BibakBOXServer.c:94-103)

The table after a walk, and what the paths in it are called on the server.
-/

namespace AdvancedCProjects.Bibak
open Base

/-- The files below `p`, in the order of the walk. -/
def filesBelow (fs : FileSystem) (fuel : ℕ) (p : List FileName) : List (List FileName) :=
  (fs.below fuel p).filter fun r => isFile (fs.node (p ++ r))

def recordOf (mtime : List FileName → ℤ) (p : List FileName) (path : Path) (r : List FileName) :
    FileModificationInfo := ⟨path ++ relativePath r, mtime (p ++ r)⟩

/-- A file is added as long as there is room. -/
def Snapshot.record (t : Snapshot) (e : FileModificationInfo) : Snapshot :=
  if t.count ≥ maxFiles then t
  else ⟨Function.update t.files t.count e, t.count + 1⟩

section Records
variable {fs : FileSystem} {cwd p : List FileName} {mtime : List FileName → ℤ} {path : Path}
  {fuel : ℕ} {t : Snapshot}

theorem saveFileModificationTimes_absorbs : saveFileModificationTimes.Absorbs := by
  intro path time t h
  have hfull : t.count ≥ maxFiles := by
    by_contra hroom
    simp only [saveFileModificationTimes, if_neg hroom] at h
    contradiction
  constructor
  · intro path
    rfl
  · intro path time
    simp only [saveFileModificationTimes, if_pos hfull]

theorem visit_record (t : Snapshot) (r : List FileName) :
    saveFileModificationTimes.visit fs mtime p path t r =
      if isFile (fs.node (p ++ r)) then t.record (recordOf mtime p path r) else t := by
  unfold Visitor.visit
  cases hx : fs.node (p ++ r) with
  | none => rfl
  | some x =>
    cases x with
    | dir => rfl
    | file content =>
      simp only [saveFileModificationTimes, isFile, if_true, Snapshot.record, recordOf]
      split <;> rfl

theorem foldl_visit (rs : List (List FileName)) (t : Snapshot) :
    rs.foldl (saveFileModificationTimes.visit fs mtime p path) t =
      ((rs.filter fun r => isFile (fs.node (p ++ r))).map (recordOf mtime p path)).foldl
        Snapshot.record t := by
  induction rs generalizing t with
  | nil => rfl
  | cons r rs ih =>
    rw [List.foldl_cons, ih, visit_record]
    rw [List.filter_cons]
    split
    · rw [List.map_cons, List.foldl_cons]
    · rfl

/-- The table holds the first records, and nothing is written behind its last entry. -/
theorem foldl_record (es : List FileModificationInfo) (ht : t.count ≤ maxFiles) :
    (es.foldl Snapshot.record t).entries = (t.entries ++ es).take maxFiles ∧
      ∀ i, maxFiles ≤ i → (es.foldl Snapshot.record t).files i = t.files i := by
  induction es generalizing t with
  | nil =>
    have hlen : t.entries.length ≤ maxFiles := by simpa [Snapshot.entries] using ht
    rw [List.foldl_nil, List.append_nil, List.take_of_length_le hlen]
    exact ⟨rfl, fun _ _ => rfl⟩
  | cons e es ih =>
    rw [List.foldl_cons]
    by_cases hfull : t.count ≥ maxFiles
    · have hrecord : t.record e = t := by
        rw [Snapshot.record, if_pos hfull]
      have hlen : maxFiles ≤ t.entries.length := by simpa [Snapshot.entries] using hfull
      obtain ⟨hentries, hbehind⟩ := ih ht
      rw [hrecord, hentries, List.take_append_of_le_length hlen,
        List.take_append_of_le_length hlen]
      exact ⟨rfl, hbehind⟩
    · have hrecord : t.record e = ⟨Function.update t.files t.count e, t.count + 1⟩ := by
        rw [Snapshot.record, if_neg hfull]
      have hroom : t.count + 1 ≤ maxFiles := by omega
      obtain ⟨hentries, hbehind⟩ := ih (t := t.record e) (by rwa [hrecord])
      have hone : (t.record e).entries = t.entries ++ [e] := by
        rw [hrecord, Snapshot.entries, Block.entries_update]
        rfl
      constructor
      · rw [hentries, hone, List.append_assoc, List.singleton_append]
      · intro i hi
        have hne : i ≠ t.count := by omega
        rw [hbehind i hi, hrecord]
        exact Function.update_of_ne hne _ _

theorem filesBelow_spec (hdir : fs.node p = some .dir) (hfuel : fs.depth < p.length + fuel) :
    (filesBelow fs fuel p).Nodup ∧
      ∀ r, r ∈ filesBelow fs fuel p ↔ isFile (fs.node (p ++ r)) = true := by
  have hlists := fs.below_lists fuel hfuel
  constructor
  · exact hlists.nodup.filter _
  · intro r
    rw [filesBelow, List.mem_filter, hlists.mem]
    constructor
    · exact And.right
    · intro hr
      apply And.intro _ hr
      constructor
      · intro hnil
        rw [hnil, List.append_nil, hdir] at hr
        contradiction
      · intro hnone
        rw [hnone] at hr
        contradiction

end Records

/-- What a table records of the files `keys` below `path`, filled over `files`. -/
structure RecordsBelow (mtime : List FileName → ℤ) (p : List FileName) (path : Path) (files : Block)
    (keys : List (List FileName)) (t : Snapshot) : Prop where
  count : t.count = min keys.length maxFiles
  entries : t.entries = (keys.map (recordOf mtime p path)).take maxFiles
  once : (t.entries.map FileModificationInfo.filepath).Nodup
  behind : ∀ i, maxFiles ≤ i → t.files i = files i

theorem walk_records (fs : FileSystem) (cwd p : List FileName) (mtime : List FileName → ℤ)
    (path : Path) (files : Block) (fuel : ℕ) (h : resolve fs cwd path = .ok p)
    (hdir : fs.node p = some .dir) (hfit : FitsBelow fs p path) (hfuel : fs.depth < fuel) :
    ∃ w, saveFileModificationTimes.walk fs cwd mtime fuel path ⟨⟨files, 0⟩, []⟩ = some w ∧
      RecordsBelow mtime p path files (filesBelow fs fuel p) w.state ∧
      (filesBelow fs fuel p).Nodup ∧
      ∀ r, r ∈ filesBelow fs fuel p ↔ isFile (fs.node (p ++ r)) = true := by
  have hfuel : fs.depth < p.length + fuel := by omega
  obtain ⟨hnodup, hmem⟩ := filesBelow_spec hdir hfuel
  obtain ⟨entered, hwalk⟩ := walk_below mtime saveFileModificationTimes_absorbs h hdir
    hfit hfuel ⟨⟨files, 0⟩, []⟩
  apply Exists.intro _
  apply And.intro hwalk
  apply And.intro _ ⟨hnodup, hmem⟩
  rw [foldl_visit]
  show RecordsBelow mtime p path files (filesBelow fs fuel p)
    (((filesBelow fs fuel p).map (recordOf mtime p path)).foldl Snapshot.record ⟨files, 0⟩)
  obtain ⟨hentries, hbehind⟩ := foldl_record (t := ⟨files, 0⟩)
    ((filesBelow fs fuel p).map (recordOf mtime p path)) (Nat.zero_le _)
  have hempty : (⟨files, 0⟩ : Snapshot).entries = [] := rfl
  rw [hempty, List.nil_append] at hentries
  apply RecordsBelow.mk
  · have hlen := congrArg List.length hentries
    rw [Snapshot.entries, Block.entries_length, List.length_take, List.length_map] at hlen
    rw [Nat.min_comm]
    exact hlen
  · exact hentries
  · have hpath : (((filesBelow fs fuel p).map (recordOf mtime p path)).map
        FileModificationInfo.filepath).Nodup := by
      rw [List.map_map]
      apply hnodup.map
      intro r s heq
      exact relativePath_injective (List.append_cancel_left heq)
    rw [hentries, List.map_take]
    exact hpath.sublist (List.take_sublist _ _)
  · exact hbehind

theorem treeBelow_records : ∃ w, saveFileModificationTimes.walk treeBelow [] (fun _ => 5) 4
    (utf8 "s/") ⟨⟨fun _ => ⟨[], 0⟩, 0⟩, []⟩ = some w ∧
      RecordsBelow (fun _ => 5) [nameS] (utf8 "s/") (fun _ => ⟨[], 0⟩)
        (filesBelow treeBelow 4 [nameS]) w.state ∧
      (filesBelow treeBelow 4 [nameS]).Nodup ∧
      ∀ r, r ∈ filesBelow treeBelow 4 [nameS] ↔ isFile (treeBelow.node ([nameS] ++ r)) = true :=
  walk_records treeBelow [] [nameS] (fun _ => 5) (utf8 "s/") (fun _ => ⟨[], 0⟩) 4 (by decide)
    (by decide) (by decide) (by decide)

/-! ### The table of a listing -/

/-- The entries `names` of the directory `p`; `sub` lists a directory. -/
def entriesOf (fs : FileSystem) (mtime : List FileName → ℤ) (sub : List FileName → Listing)
    (p : List FileName) : List FileName → Listing
  | [] => .nil
  | n :: names => match fs.node (p ++ [n]) with
    | some (.file content) =>
      .file n.val (mtime (p ++ [n])) content (entriesOf fs mtime sub p names)
    | some .dir => .dir n.val (mtime (p ++ [n])) (sub (p ++ [n])) (entriesOf fs mtime sub p names)
    | none => entriesOf fs mtime sub p names

/-- What stands below a directory, as `readdir` returns it. -/
def listing (fs : FileSystem) (mtime : List FileName → ℤ) : ℕ → List FileName → Listing
  | 0, _ => .nil
  | fuel + 1, p => entriesOf fs mtime (listing fs mtime fuel) p (fs.children p)

section Listing
variable {fs : FileSystem} {cwd p : List FileName} {mtime : List FileName → ℤ} {path : Path}
  {fuel : ℕ} {names : List FileName} {n : FileName} {sub : List FileName → Listing}

theorem names_entriesOf (hnames : ∀ n ∈ names, n ∈ fs.children p) :
    (entriesOf fs mtime sub p names).names = names.map Subtype.val := by
  induction names with
  | nil => rfl
  | cons n names ih =>
    have hnode := fs.mem_children.mp (hnames n List.mem_cons_self)
    have ih := ih fun m hm => hnames m (List.mem_cons_of_mem _ hm)
    rw [entriesOf]
    split
    · rw [Listing.names, ih, List.map_cons]
    · rw [Listing.names, ih, List.map_cons]
    · next hnone => exact absurd hnone hnode

theorem namesOk_entriesOf (hnames : ∀ n ∈ names, n ∈ fs.children p) (hnodup : names.Nodup)
    (hsub : ∀ q, (sub q).NamesOk) : (entriesOf fs mtime sub p names).NamesOk := by
  induction names with
  | nil => trivial
  | cons n names ih =>
    obtain ⟨hn, hnodup⟩ := List.nodup_cons.mp hnodup
    have hrest : ∀ m ∈ names, m ∈ fs.children p := fun m hm => hnames m (List.mem_cons_of_mem _ hm)
    have hnew : n.val ∉ (entriesOf fs mtime sub p names).names := by
      rw [names_entriesOf hrest]
      intro hmem
      obtain ⟨m, hm, heq⟩ := List.mem_map.mp hmem
      exact hn (Subtype.ext heq ▸ hm)
    have hrest := ih hrest hnodup
    rw [entriesOf]
    split
    · exact ⟨n.property.1, hnew, hrest⟩
    · exact ⟨n.property.1, hnew, hsub _, hrest⟩
    · exact hrest

theorem listing_namesOk (fuel : ℕ) (p : List FileName) : (listing fs mtime fuel p).NamesOk := by
  induction fuel generalizing p with
  | zero => trivial
  | succ fuel ih => exact namesOk_entriesOf (fun _ hn => hn) fs.children_nodup ih

theorem fits_entriesOf (hnames : ∀ n ∈ names, n ∈ fs.children p) (hfit : FitsBelow fs p path)
    (hsub : ∀ n ∈ names, (sub (p ++ [n])).Fits (path ++ relativePath [n])) :
    (entriesOf fs mtime sub p names).Fits path := by
  induction names with
  | nil => exact fun f hf => absurd hf List.not_mem_nil
  | cons n names ih =>
    have hnode := fs.mem_children.mp (hnames n List.mem_cons_self)
    have hhere := hfit [n] (List.cons_ne_nil _ _) hnode
    have hbelow := hsub n List.mem_cons_self
    have hrest := ih (fun m hm => hnames m (List.mem_cons_of_mem _ hm))
      fun m hm => hsub m (List.mem_cons_of_mem _ hm)
    simp only [relativePath_cons, relativePath_nil, List.append_nil] at hhere hbelow
    intro f hf
    rw [entriesOf] at hf
    split at hf
    · rcases List.mem_cons.mp hf with rfl | hf
      · exact hhere
      · exact hrest f hf
    · rcases List.mem_cons.mp hf with rfl | hf
      · exact hhere
      · rcases List.mem_append.mp hf with hf | hf
        · exact hbelow f hf
        · exact hrest f hf
    · exact hrest f hf

theorem listing_fits (hfit : FitsBelow fs p path) (fuel : ℕ) :
    (listing fs mtime fuel p).Fits path := by
  induction fuel generalizing p path with
  | zero => exact fun f hf => absurd hf List.not_mem_nil
  | succ fuel ih => exact fits_entriesOf (fun _ hn => hn) hfit fun n _ => ih (hfit.sub n)

theorem loop_listing (h : resolve fs cwd path = .ok p) (hfit : FitsBelow fs p path)
    (hnames : ∀ n ∈ names, n ∈ fs.children p)
    (hsub : ∀ n ∈ names, fs.node (p ++ [n]) = some .dir → ∀ w : Walk Snapshot, ∃ entered,
      saveFileModificationTimes.walk fs cwd mtime fuel (path ++ relativePath [n]) w =
        some ⟨(sub (p ++ [n])).saveFileModificationTimes (path ++ relativePath [n]) w.state,
          entered⟩)
    (w : Walk Snapshot) : ∃ entered,
      saveFileModificationTimes.loop fs cwd mtime
        (saveFileModificationTimes.walk fs cwd mtime fuel) path (names.map Subtype.val) w =
        some ⟨(entriesOf fs mtime sub p names).saveFileModificationTimes path w.state,
          entered⟩ := by
  induction names generalizing w with
  | nil => exact ⟨w.entered, rfl⟩
  | cons n names ih =>
    have hchild := hnames n List.mem_cons_self
    have hnode := fs.mem_children.mp hchild
    have hn := FileName.no_dots n
    have hjoin := joinPath_child hfit hchild
    have ih := ih (fun m hm => hnames m (List.mem_cons_of_mem _ hm))
      fun m hm => hsub m (List.mem_cons_of_mem _ hm)
    rw [List.map_cons, entriesOf]
    cases hx : fs.node (p ++ [n]) with
    | none => exact absurd hx hnode
    | some x =>
      have hstat : statAt fs cwd (joinPath path n.val) = some (p ++ [n], x) := by
        rw [hjoin, statAt_below h hnode, hx]
        rfl
      cases x with
      | dir =>
        obtain ⟨entered, hwalk⟩ := hsub n List.mem_cons_self hx w
        rw [← hjoin] at hwalk
        rw [loop_dir hn hstat]
        show ∃ entered, (saveFileModificationTimes.walk fs cwd mtime fuel _ w).bind _ = _
        rw [hwalk, Option.bind_some]
        exact ih _
      | file content =>
        dsimp only
        rw [Listing.saveFileModificationTimes]
        split
        · next hfull =>
          rw [loop_break hn hstat (if_pos hfull)]
          exact ⟨w.entered, rfl⟩
        · next hroom =>
          rw [loop_file hn hstat (if_neg hroom)]
          exact ih _

/-- The table that the walk over the disk fills is the one that is filled from the listing
of the directory, whose names and paths are as the watch loop has them. -/
theorem walk_listing (h : resolve fs cwd path = .ok p) (hdir : fs.node p = some .dir)
    (hfit : FitsBelow fs p path) (hfuel : fs.depth < p.length + fuel) (t : Snapshot) :
    (listing fs mtime fuel p).NamesOk ∧ (listing fs mtime fuel p).Fits path ∧
      ∃ w, saveFileModificationTimes.walk fs cwd mtime fuel path ⟨t, []⟩ = some w ∧
        w.state = (listing fs mtime fuel p).saveFileModificationTimes path t := by
  have hwalk : ∀ fuel p path, resolve fs cwd path = .ok p → fs.node p = some .dir →
      FitsBelow fs p path → fs.depth < p.length + fuel → ∀ w : Walk Snapshot, ∃ entered,
      saveFileModificationTimes.walk fs cwd mtime fuel path w =
        some ⟨(listing fs mtime fuel p).saveFileModificationTimes path w.state, entered⟩ := by
    intro fuel
    induction fuel with
    | zero =>
      intro p path _ hdir _ hfuel
      have hlen := fs.length_le_depth (p := p) (by simp [hdir])
      omega
    | succ fuel ih =>
      intro p path h hdir hfit hfuel w
      rw [walk_dir (statAt_of h hdir), listing]
      apply loop_listing h hfit (fun _ hn => hn)
      intro n hn hsub w
      apply ih _ _ (resolve_below h (.inr (by simpa using hdir))) hsub (hfit.sub n)
      rw [List.length_append, List.length_singleton]
      omega
  obtain ⟨entered, heq⟩ := hwalk fuel p path h hdir hfit hfuel ⟨t, []⟩
  exact ⟨listing_namesOk fuel p, listing_fits hfit fuel, _, heq, rfl⟩

end Listing
/-! ### Translation -/

/-- The string that the loops have built when they come to the names `r` below `directory`. -/
def recordedPath (directory : Path) (r : List FileName) : Path :=
  r.foldl (fun directory n => joinPath directory n.val) directory

def configurePath (path basePath : Path) : Path := basePath ++ path

theorem recordedPath_eq {directory : Path} {r : List FileName}
    (h : (directory ++ relativePath r).length < maxPathLength) :
    recordedPath directory r = directory ++ relativePath r := by
  induction r using List.reverseRecOn with
  | nil => simp [recordedPath]
  | append_singleton r n ih =>
    have hsplit : directory ++ relativePath (r ++ [n]) =
        (directory ++ relativePath r) ++ slash :: n.val := by
      simp [relativePath]
    rw [hsplit] at h ⊢
    have hfront : (directory ++ relativePath r).length < maxPathLength := by
      rw [List.length_append] at h
      omega
    have ih := ih hfront
    unfold recordedPath at ih ⊢
    rw [List.foldl_append, ih, List.foldl_cons, List.foldl_nil, Listing.joinPath_of_fits h]

/-- The client's path of `r` below `b` on the way to the server, and the server's below `s` on
the way back. -/
structure Translates (b s : Path) (r : List FileName) : Prop where
  removed : removeBasePath (recordedPath b r) b = relativePath r
  configured : configurePath (removeBasePath (recordedPath b r) b) s = recordedPath s r
  names : ∀ (fs : FileSystem) cwd q, resolve fs cwd s = .ok q →
    fs.node (q ++ r.dropLast) = some .dir →
    resolve fs cwd (configurePath (removeBasePath (recordedPath b r) b) s) = .ok (q ++ r)
  back : ∀ isFile, destinationPath s b (.ofPath (recordedPath s r) isFile) = recordedPath b r

section Translation
variable {b s : Path} {r r' : List FileName}

theorem removeBasePath_recordedPath (hr : r ≠ [])
    (h : (b ++ relativePath r).length < maxPathLength) :
    removeBasePath (recordedPath b r) b = relativePath r := by
  rw [recordedPath_eq h]
  cases r with
  | nil => contradiction
  | cons n r =>
    have hhead : (n.val ++ relativePath r).head? ≠ some slash := by
      intro heq
      have hmem : slash ∈ n.val := by
        rw [List.head?_append_of_ne_nil _ n.property.1.1] at heq
        exact List.mem_of_mem_head? heq
      exact n.no_slash hmem
    exact removeBasePath_below b _ hhead

theorem translates (hr : r ≠ []) (hb : (b ++ relativePath r).length < maxPathLength)
    (hs : (s ++ relativePath r).length < maxPathLength) : Translates b s r where
  removed := removeBasePath_recordedPath hr hb
  configured := by
    rw [removeBasePath_recordedPath hr hb, recordedPath_eq hs, configurePath]
  names fs cwd q hq hdir := by
    rw [removeBasePath_recordedPath hr hb]
    exact resolve_below hq (.inr hdir)
  back isFile := by
    rw [recordedPath_eq hb, recordedPath_eq hs]
    exact destinationPath_below isFile hr hs hb

end Translation

/-- The translations are inverse to each other, and different files have different places on
the server. -/
theorem paths_translated (b s : Path) (r : List FileName) (hr : r ≠ [])
    (hb : (b ++ relativePath r).length < maxPathLength)
    (hs : (s ++ relativePath r).length < maxPathLength) :
    recordedPath b r = b ++ relativePath r ∧ Translates b s r ∧
      ∀ r', r' ≠ [] → (b ++ relativePath r').length < maxPathLength →
        ∀ (fs : FileSystem) cwd q p, resolve fs cwd s = .ok q →
          resolve fs cwd (configurePath (removeBasePath (recordedPath b r) b) s) = .ok p →
          resolve fs cwd (configurePath (removeBasePath (recordedPath b r') b) s) = .ok p →
          r = r' := by
  apply And.intro (recordedPath_eq hb)
  apply And.intro (translates hr hb hs)
  intro r' hr' hb' fs cwd q p hq h h'
  rw [removeBasePath_recordedPath hr hb, configurePath, resolve_append hq] at h
  rw [removeBasePath_recordedPath hr' hb', configurePath, resolve_append hq] at h'
  have heq := (fs.walk_down_eq h).symm.trans (fs.walk_down_eq h')
  exact List.append_cancel_left heq

theorem path_translated_below : Translates (utf8 "w/") (utf8 "s") [nameD, nameB] :=
  (paths_translated (utf8 "w/") (utf8 "s") [nameD, nameB] (by decide) (by decide) (by decide)).2.1

end AdvancedCProjects.Bibak
