import AdvancedCProjects.Bibak.Folders

/-!
# What a CREATE message makes (BibakBOXServer.c:285-342, BibakBOXClient.c:136-175)

The client sends the paths of files only. `handle_create` takes a name without a dot for
the name of a folder.
-/

namespace AdvancedCProjects.Bibak
open Base

/-- A regular file and its parents are there, and nothing else is new. -/
structure FileMade (fs : FileSystem) (cwd : List FileName) (result : Path) (fs' : FileSystem)
    (p : List FileName) (content : Bytes) : Prop where
  names : resolve fs' cwd result = .ok p
  file : fs'.node p = some (.file content)
  parents : ∀ q, q <+: p → q ≠ p → fs'.node q = some .dir
  created : ∀ q, fs.node q = none → fs'.node q ≠ none → q <+: p

/-- The call stays in its buffers, and if it returns the file is made. -/
def CreatesFile (basePath : Path) (cwd : List FileName) (fs : FileSystem) (fileName : Path) :
    Prop :=
  ¬ createOverflows (basePath ++ fileName) ∧
    ∀ fs', handleCreate basePath cwd fs fileName = some fs' →
      ∃ p content, FileMade fs cwd (basePath ++ fileName) fs' p content

/-- A directory, or a folder among `made` that is missing. -/
def DirAfter (fs : FileSystem) (made : List (List FileName)) (q : List FileName) : Prop :=
  fs.node q = some .dir ∨ fs.node q = none ∧ q ∈ made

/-- `fopen` finds the file's directory, and no directory under its name, once the folders
`made` are there. -/
def FopenFinds (fs : FileSystem) (made : List (List FileName)) (start : List FileName)
    (dirs : List (Component FileName)) (n : FileName) : Prop :=
  (∀ q ∈ Component.places start dirs, DirAfter fs made q) ∧
    ¬ DirAfter fs made (dirs.foldl Component.next start ++ [n])

/-- For a name with a dot: if the call returns, the folders that are missing, taken from the
root, are on the way to the file. -/
def FoldersOnTheWay (fs : FileSystem) (start : List FileName) (dirs : List (Component FileName))
    (n : FileName) : Prop :=
  NoFile fs (Component.places [] dirs) → FopenFinds fs (Component.places [] dirs) start dirs n →
    ∀ q ∈ Component.places [] dirs, fs.node q = none →
      q <+: dirs.foldl Component.next start ++ [n]

/-- For a name without: if the call returns, there was nothing to make, and the file was there
already. -/
def AlreadyThere (fs : FileSystem) (cwd : List FileName) (result : Path) : Prop :=
  NoFile fs (Component.places [] (components result)) →
    (∀ q ∈ Component.places [] (components result), fs.node q ≠ none) ∧
      ∃ content, stat fs cwd result = some (.file content)

section Created
variable {fs fs' : FileSystem} {cwd p q r : List FileName} {basePath path : Path} {n : FileName}

theorem components_below :
    components (basePath ++ relativePath (r ++ [n])) =
      components (basePath ++ relativePath r) ++ [.down n] := by
  rw [components_append, components_append, List.map_append, List.append_assoc]
  rfl

theorem components_slash (path : Path) :
    components (path ++ [slash]) = components path ++ [.here] := by
  rw [components, List.splitOn_append_cons_self, List.splitOn_nil, List.map_append,
    List.map_singleton, component_nil]
  rfl

theorem mem_places_slash : q ∈ Component.places p (components (path ++ [slash])) ↔
    q ∈ Component.places p (components path) := by
  rw [components_slash, Component.mem_places_here]

theorem dirAfter_iff {made : List (List FileName)} (h : WithFolders fs made fs') :
    fs'.node q = some .dir ↔ DirAfter fs made q := by
  rw [h, DirAfter]
  split
  · next hq => simp [hq]
  · next hq => simp [hq]

/-! ### Names without a dot -/

theorem AlreadyThere.of_created (h : ∀ fs', createFolderStructure cwd fs path = some fs' →
    ∃ p content, FileMade fs cwd path fs' p content) : AlreadyThere fs cwd path := by
  intro hno
  obtain ⟨fs', hfs', hwith, hsame⟩ := createFolderStructure_made cwd hno
  obtain ⟨p, content, hmade⟩ := h fs' hfs'
  have hfile : fs.node p = some (.file content) := by
    have hnode := hmade.file
    rw [hwith] at hnode
    split at hnode
    · simp at hnode
    · exact hnode
  have hall : ∀ q ∈ Component.places [] (components path), fs.node q ≠ none := by
    intro q hq hnone
    have hpre := hmade.created q hnone (by rw [hwith.there hno hq]; simp)
    obtain ⟨s, rfl⟩ := hpre
    by_cases hs : s = []
    · rw [hs, List.append_nil, hnone] at hfile
      contradiction
    · rw [fs.above (by rw [hfile]; simp) hs] at hnone
      contradiction
  apply And.intro hall
  apply Exists.intro content
  have hnames := hmade.names
  rw [hsame hall] at hnames
  simp only [stat, hnames, hfile]

theorem AlreadyThere.created (h : AlreadyThere fs cwd path)
    (hfs' : createFolderStructure cwd fs path = some fs') :
    ∃ p content, FileMade fs cwd path fs' p content := by
  have hno : NoFile fs (Component.places [] (components path)) := by
    by_contra hfile
    rw [createFolderStructure_file hfile] at hfs'
    contradiction
  obtain ⟨hall, content, hstat⟩ := h hno
  obtain ⟨made, hmade, _, hsame⟩ := createFolderStructure_made cwd hno
  obtain rfl := Option.some.inj (hfs'.symm.trans hmade)
  rw [hsame hall]
  unfold stat at hstat
  split at hstat
  · next p hp =>
    apply Exists.intro p
    apply Exists.intro content
    apply FileMade.mk hp hstat
    · rintro q ⟨s, rfl⟩ hne
      apply fs.above (by rw [hstat]; simp)
      intro hs
      exact hne (by simp [hs])
    · intro q hold hnew
      exact absurd hold hnew
  · contradiction

/-! ### Names with a dot -/

theorem walk_last {start : List FileName} {dirs : List (Component FileName)}
    {c : Component FileName} (h : fs.walk start (dirs ++ [c]) = .ok p) :
    ∃ m, fs.walk start dirs = .ok m ∧ fs.node m = some .dir := by
  rw [Disk.walk_append] at h
  cases hm : fs.walk start dirs with
  | error e =>
    rw [hm] at h
    contradiction
  | ok m =>
    apply Exists.intro m
    apply And.intro rfl
    rw [hm] at h
    have h : fs.walk m [c] = .ok p := h
    unfold Disk.walk at h
    split at h
    · contradiction
    · contradiction
    · next hdir => exact hdir

variable (cwd) in
theorem folders_made (hno : NoFile fs (Component.places [] (components path))) :
    ∃ fs', createFolderStructure cwd fs (path ++ [slash]) = some fs' ∧
      WithFolders fs (Component.places [] (components path)) fs' := by
  have hno' : NoFile fs (Component.places [] (components (path ++ [slash]))) :=
    fun q hq => hno q (mem_places_slash.mp hq)
  obtain ⟨fs', hfs', hwith, -⟩ := createFolderStructure_made cwd hno'
  apply Exists.intro fs'
  apply And.intro hfs'
  intro q
  rw [hwith q]
  simp only [mem_places_slash]

theorem FoldersOnTheWay.of_created {result : Path} {start : List FileName}
    {dirs : List (Component FileName)} (hdirs : dirs = components path)
    (hresult : ∀ fs : FileSystem, resolve fs cwd result = fs.walk start (dirs ++ [.down n]))
    (h : ∀ fs', ((createFolderStructure cwd fs (path ++ [slash])).bind fun fs =>
      orExit (writeFile fs cwd result [])) = some fs' →
        ∃ p content, FileMade fs cwd result fs' p content) : FoldersOnTheWay fs start dirs n := by
  subst hdirs
  rintro hno ⟨hway, hfree⟩ q hq hmissing
  obtain ⟨made, hmade, hwith⟩ := folders_made cwd hno
  have hdirs : ∀ q ∈ Component.places start (components path), made.node q = some .dir :=
    fun q hq => (dirAfter_iff hwith).mpr (hway q hq)
  have hlast := hdirs _ (Component.last_mem_places start (components path))
  have hres : resolve made cwd result =
      .ok ((components path).foldl Component.next start ++ [n]) := by
    rw [hresult, Disk.walk_append, made.walk_places hdirs]
    simp only [Except.bind, Disk.walk, hlast, Component.next]
  obtain ⟨fs', hsave, hnode⟩ := made.save_file
    (p := (components path).foldl Component.next start ++ [n]) []
    (fun hdir => hfree ((dirAfter_iff hwith).mp hdir)) (by rwa [List.dropLast_concat])
  have hcall : writeFile made cwd result [] = .ok fs' := by
    simp only [writeFile, hres, Except.bind, hsave]
  obtain ⟨p, content, hfile⟩ := h fs' (by rw [hmade, Option.bind_some, hcall]; rfl)
  have hp : p = (components path).foldl Component.next start ++ [n] := by
    have hnames := hfile.names
    rw [hresult] at hnames
    rw [fs'.walk_foldl hnames, List.foldl_append]
    rfl
  rw [← hp]
  apply hfile.created q hmissing
  rw [hnode]
  split
  · simp
  · rw [hwith.there hno hq]
    simp

theorem FoldersOnTheWay.created {result : Path} {start : List FileName}
    {dirs : List (Component FileName)} (hdirs : dirs = components path)
    (hresult : ∀ fs : FileSystem, resolve fs cwd result = fs.walk start (dirs ++ [.down n]))
    (h : FoldersOnTheWay fs start dirs n)
    (hfs' : ((createFolderStructure cwd fs (path ++ [slash])).bind fun fs =>
      orExit (writeFile fs cwd result [])) = some fs') :
    ∃ p content, FileMade fs cwd result fs' p content := by
  subst hdirs
  obtain ⟨made, hmade, hwrite⟩ := Option.bind_eq_some_iff.mp hfs'
  have hno : NoFile fs (Component.places [] (components path)) := by
    by_contra hfile
    rw [createFolderStructure_file] at hmade
    · contradiction
    · intro hno
      exact hfile fun q hq => hno q (mem_places_slash.mpr hq)
  obtain ⟨made', hmade', hwith⟩ := folders_made cwd hno
  obtain rfl := Option.some.inj (hmade.symm.trans hmade')
  have hwrite := orExit_some hwrite
  cases hres : resolve made cwd result with
  | error e =>
    rw [writeFile, hres] at hwrite
    contradiction
  | ok p =>
    rw [writeFile, hres] at hwrite
    obtain ⟨hfree, hnode⟩ := made.save_ok hwrite
    have hwalk := hres
    rw [hresult] at hwalk
    have hp : p = (components path).foldl Component.next start ++ [n] := by
      rw [made.walk_foldl hwalk, List.foldl_append]
      rfl
    obtain ⟨m, hm, hmdir⟩ := walk_last hwalk
    have hopens : FopenFinds fs (Component.places [] (components path)) start (components path)
        n := by
      constructor
      · intro q hq
        exact (dirAfter_iff hwith).mp (made.dir_of_walk hm hmdir q hq)
      · rw [← hp]
        intro hdir
        exact hfree ((dirAfter_iff hwith).mpr hdir)
    have hfile : fs'.node p = some (.file []) := by
      rw [hnode, if_pos rfl]
    have hdirs : ∀ q, made.node q = some .dir → fs'.node q = some .dir := by
      intro q hq
      rw [hnode, if_neg, hq]
      intro heq
      exact hfree (heq ▸ hq)
    apply Exists.intro p
    apply Exists.intro []
    apply FileMade.mk (resolve_mono hdirs hres) hfile
    · rintro q ⟨s, rfl⟩ hne
      apply fs'.above (by rw [hfile]; simp)
      intro hs
      exact hne (by simp [hs])
    · intro q hold hnew
      by_cases hq : q = p
      · subst hq
        exact List.prefix_rfl
      · rw [hnode, if_neg hq] at hnew
        rw [hp]
        exact h hno hopens q (hwith.made hold hnew) hold

end Created

/-- When the name has a dot the folders decide, otherwise what was there before. -/
theorem createsFile_iff (basePath : Path) (cwd : List FileName) (fs : FileSystem)
    (r : List FileName) (n : FileName) :
    CreatesFile basePath cwd fs (relativePath (r ++ [n])) ↔
      ¬ createOverflows (basePath ++ relativePath (r ++ [n])) ∧
        if dot ∈ n.val then
          FoldersOnTheWay fs (pathStart cwd (basePath ++ relativePath (r ++ [n])))
            (components (basePath ++ relativePath r)) n
        else AlreadyThere fs cwd (basePath ++ relativePath (r ++ [n])) := by
  apply and_congr_right
  intro hfits
  have hpath : basePath ++ relativePath (r ++ [n]) ≠ [] := by
    rw [relativePath_snoc]
    simp
  have hresult : ∀ fs : FileSystem, resolve fs cwd (basePath ++ relativePath (r ++ [n])) =
      fs.walk (pathStart cwd (basePath ++ relativePath (r ++ [n])))
        (components (basePath ++ relativePath r) ++ [.down n]) := by
    intro fs
    rw [resolve_components hpath, components_below]
  by_cases hdot : dot ∈ n.val
  · rw [if_pos hdot, handleCreate_file hdot, if_neg hfits]
    constructor
    · exact FoldersOnTheWay.of_created rfl hresult
    · intro h fs' hfs'
      exact h.created rfl hresult hfs'
  · rw [if_neg hdot, handleCreate_folder hdot, if_neg hfits]
    constructor
    · exact AlreadyThere.of_created
    · intro h fs' hfs'
      exact h.created hfs'

/-- The client reports the new file `a`, and the server makes a folder of that name. -/
theorem no_dot_no_file : ∃ fs',
    handleCreate (utf8 "/s") [] oneFolder (relativePath [nameA]) = some fs' ∧
      ¬ ∃ p content, FileMade oneFolder [] (utf8 "/s" ++ relativePath [nameA]) fs' p content := by
  have hfolder : (handleCreate (utf8 "/s") [] oneFolder (relativePath [nameA])).map
      (fun fs' => stat fs' [] (utf8 "/s" ++ relativePath [nameA])) = some (some .dir) := by decide
  obtain ⟨fs', hfs', hstat⟩ := Option.map_eq_some_iff.mp hfolder
  apply Exists.intro fs'
  apply And.intro hfs'
  rintro ⟨p, content, hmade⟩
  rw [stat, hmade.names] at hstat
  simp [hmade.file] at hstat

end AdvancedCProjects.Bibak
