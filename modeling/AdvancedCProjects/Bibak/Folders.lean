import AdvancedCProjects.Bibak.Handlers
import AdvancedCProjects.Bibak.Mirror

/-!
# Where the folders are made (BibakBOXServer.c:65-92, 285-342, BibakBOXClient.c:363-390)

`create_folder_structure` puts the tokens of a path together from the root, while the
kernel resolves a relative path from the working directory.
-/

namespace AdvancedCProjects.Bibak
open Base

/-- `create_folder_structure`, with its buffer of 256 bytes; `none` is `exit`, or a write
past the buffer. -/
def createFolderStructureIn (cwd : List FileName) (fs : FileSystem) (path : Path) :
    Option FileSystem :=
  if 256 ≤ (folderPath path).length then none else createFolderStructure cwd fs path

def components (path : Path) : List (Component FileName) := (path.splitOn slash).map component

theorem components_append (path : Path) (r : List FileName) :
    components (path ++ relativePath r) = components path ++ r.map .down := by
  rw [components, splitOn_below, List.map_append, component_names]
  rfl

/-- Where the kernel starts. -/
def pathStart (cwd : List FileName) (path : Path) : List FileName :=
  if path.head? = some slash then [] else cwd

/-- The call has made the folder `path`, and of what was missing only prefixes of it. -/
structure FolderMade (fs : FileSystem) (cwd : List FileName) (path : Path) (fs' : FileSystem) :
    Prop where
  there : stat fs' cwd path = some .dir
  kept : ∀ q, fs.node q ≠ none → fs'.node q = fs.node q
  made : ∀ q, fs.node q = none → fs'.node q ≠ none →
    ∃ i, fs'.walk (pathStart cwd path) ((components path).take i) = .ok q
  again : createFolderStructureIn cwd fs' path = some fs'

def MakesFolder (fs : FileSystem) (cwd : List FileName) (path : Path) : Prop :=
  ∃ fs', createFolderStructureIn cwd fs path = some fs' ∧ FolderMade fs cwd path fs'

def NoFile (fs : FileSystem) (places : List (List FileName)) : Prop :=
  ∀ q ∈ places, ∀ content, fs.node q ≠ some (.file content)

/-- The path meets no file, neither from the root nor from where the kernel starts, and the
same places are missing. -/
structure SamePlaces (fs : FileSystem) (cwd : List FileName) (path : Path) : Prop where
  root : NoFile fs (Component.places [] (components path))
  start : NoFile fs (Component.places (pathStart cwd path) (components path))
  missing : ∀ q, fs.node q = none → (q ∈ Component.places [] (components path) ↔
    q ∈ Component.places (pathStart cwd path) (components path))

/-- The file system with folders at those of the places that were missing. -/
def WithFolders (fs : FileSystem) (places : List (List FileName)) (fs' : FileSystem) : Prop :=
  ∀ q, fs'.node q = if fs.node q = none ∧ q ∈ places then some .dir else fs.node q

section Folders
variable {fs fs' : FileSystem} {cwd p q : List FileName} {path : Path} {ts us : List Bytes}
  {t : Bytes}

theorem WithFolders.kept {places : List (List FileName)} (h : WithFolders fs places fs')
    (hq : fs.node q ≠ none) : fs'.node q = fs.node q := by
  rw [h, if_neg fun hnone => hq hnone.1]

theorem WithFolders.there {places : List (List FileName)} (h : WithFolders fs places fs')
    (hno : NoFile fs places) (hq : q ∈ places) : fs'.node q = some .dir := by
  rw [h]
  split
  · rfl
  · next hthere =>
    cases hx : fs.node q with
    | none => exact absurd ⟨hx, hq⟩ hthere
    | some x =>
      cases x with
      | dir => rfl
      | file content => exact absurd hx (hno q hq content)

theorem WithFolders.made {places : List (List FileName)} (h : WithFolders fs places fs')
    (hold : fs.node q = none) (hnew : fs'.node q ≠ none) : q ∈ places := by
  by_contra hq
  rw [h, if_neg fun hmade => hq hmade.2] at hnew
  exact hnew hold

theorem next_missing {c : Component FileName} (hdir : fs.node p = some .dir)
    (h : fs.node (c.next p) = none) : fs.node (c.next p).dropLast = some .dir := by
  cases c with
  | here =>
    have h : fs.node p = none := h
    rw [hdir] at h
    contradiction
  | up =>
    have hup := fs.node_dropLast (p := p) (by rw [hdir]; simp)
    have h : fs.node p.dropLast = none := h
    rw [hup] at h
    contradiction
  | down n =>
    rw [Component.next, List.dropLast_concat]
    exact hdir

variable (cwd) in
theorem createFolders_token (hts : ∀ u ∈ ts ++ t :: us, slash ∉ u)
    (hwalk : fs.walk [] (ts.map component) = .ok p) (hdir : fs.node p = some .dir) :
    (∀ u ∈ (ts ++ [t]) ++ us, slash ∉ u) ∧
      fs.walk [] ((ts ++ [t]).map component) = .ok ((component t).next p) ∧
      createFolders cwd fs (currentPath ts) (t :: us) =
        match fs.node ((component t).next p) with
        | none =>
          match fs.mkdir ((component t).next p) with
          | .ok fs => createFolders cwd fs (currentPath (ts ++ [t])) us
          | .error _ => none
        | some (.file _) => none
        | some .dir => createFolders cwd fs (currentPath (ts ++ [t])) us := by
  have hfront : ∀ t ∈ ts, slash ∉ t := fun t ht => hts t (List.mem_append_left _ ht)
  have ht : slash ∉ t := hts t (by simp)
  have hsnoc : fs.walk [] ((ts ++ [t]).map component) = .ok ((component t).next p) := by
    rw [List.map_append, Disk.walk_append, hwalk, List.map_singleton]
    simp only [Except.bind, Disk.walk, hdir]
  have hpath : resolve fs cwd (currentPath ts ++ t) = .ok ((component t).next p) := by
    rw [resolve_currentPath hfront ht, hsnoc]
  rw [List.append_cons] at hts
  apply And.intro hts
  apply And.intro hsnoc
  have hstat : stat fs cwd (currentPath ts ++ t) = fs.node ((component t).next p) := by
    simp only [stat, hpath]
  rw [currentPath_snoc]
  cases hnode : fs.node ((component t).next p) with
  | none =>
    cases hmkdir : fs.mkdir ((component t).next p) with
    | error e => simp only [createFolders, hstat, hnode, hpath, Except.bind, hmkdir]
    | ok fs' => simp only [createFolders, hstat, hnode, hpath, Except.bind, hmkdir]
  | some x =>
    cases x with
    | dir => simp only [createFolders, hstat, hnode]
    | file content => simp only [createFolders, hstat, hnode]

variable (cwd) in
theorem createFolders_made (hts : ∀ t ∈ ts ++ us, slash ∉ t)
    (hwalk : fs.walk [] (ts.map component) = .ok p) (hdir : fs.node p = some .dir)
    (hno : NoFile fs (Component.places p (us.map component))) :
    ∃ fs', createFolders cwd fs (currentPath ts) us = some fs' ∧
      WithFolders fs (Component.places p (us.map component)) fs' ∧
      ((∀ q ∈ Component.places p (us.map component), fs.node q ≠ none) → fs' = fs) := by
  induction us generalizing fs ts p with
  | nil =>
    apply Exists.intro fs
    apply And.intro rfl
    apply And.intro _ (fun _ => rfl)
    intro q
    split
    · next hq =>
      have heq : q = p := List.mem_singleton.mp hq.2
      rw [heq, hdir] at hq
      exact absurd hq.1 (by simp)
    · rfl
  | cons u us ih =>
    obtain ⟨hrest, hsnoc, hcall⟩ := createFolders_token cwd hts hwalk hdir
    have htail : NoFile fs (Component.places ((component u).next p) (us.map component)) :=
      fun q hq => hno q (List.mem_cons_of_mem _ hq)
    rw [hcall, List.map_cons, Component.places]
    cases hx : fs.node ((component u).next p) with
    | some x =>
      cases x with
      | file content =>
        exact absurd hx (htail _ (Component.self_mem_places _ _) content)
      | dir =>
        obtain ⟨fs', hfs', hwith, hsame⟩ := ih hrest hsnoc hx htail
        apply Exists.intro fs'
        apply And.intro hfs'
        constructor
        · intro q
          rw [hwith q]
          by_cases hq : q = p
          · rw [hq, hdir]
            simp
          · simp [hq]
        · intro hall
          exact hsame fun q hq => hall q (List.mem_cons_of_mem _ hq)
    | none =>
      obtain ⟨made, hmkdir, hnode⟩ := fs.mkdir_new hx (next_missing hdir hx)
      have hkeep : ∀ q, fs.node q ≠ none → made.node q = fs.node q := by
        intro q hq
        rw [hnode, if_neg]
        intro heq
        exact hq (heq ▸ hx)
      have hdirs : ∀ q, fs.node q = some .dir → made.node q = some .dir := by
        intro q hq
        rw [hkeep q (by rw [hq]; simp), hq]
      have hnew : made.node ((component u).next p) = some .dir := by
        rw [hnode, if_pos rfl]
      have htail' : NoFile made (Component.places ((component u).next p) (us.map component)) := by
        intro q hq content hfile
        rw [hnode] at hfile
        split at hfile
        · simp at hfile
        · exact htail q hq content hfile
      obtain ⟨fs', hfs', hwith, _⟩ := ih hrest (Disk.walk_mono hdirs hsnoc) hnew htail'
      simp only [hmkdir]
      apply Exists.intro fs'
      apply And.intro hfs'
      constructor
      · intro q
        by_cases hq : q = (component u).next p
        · rw [hwith.there htail' (hq ▸ Component.self_mem_places _ _), hq, if_pos]
          exact ⟨hx, List.mem_cons_of_mem _ (Component.self_mem_places _ _)⟩
        · rw [hwith q, hnode, if_neg hq]
          by_cases hp : q = p
          · rw [hp, hdir]
            simp
          · simp [hp]
      · intro hall
        exact absurd hx (hall _ (List.mem_cons_of_mem _ (Component.self_mem_places _ _)))

theorem createFolders_file (hts : ∀ t ∈ ts ++ us, slash ∉ t)
    (hwalk : fs.walk [] (ts.map component) = .ok p) (hdir : fs.node p = some .dir)
    (hfile : ¬ NoFile fs (Component.places p (us.map component))) :
    createFolders cwd fs (currentPath ts) us = none := by
  induction us generalizing fs ts p with
  | nil =>
    exfalso
    apply hfile
    intro q hq content
    rw [List.mem_singleton.mp hq, hdir]
    simp
  | cons u us ih =>
    obtain ⟨hrest, hsnoc, hcall⟩ := createFolders_token cwd hts hwalk hdir
    have htail : ¬ NoFile fs (Component.places ((component u).next p) (us.map component)) := by
      intro hno
      apply hfile
      intro q hq content
      rcases List.mem_cons.mp hq with rfl | hq
      · rw [hdir]
        simp
      · exact hno q hq content
    rw [hcall]
    cases hx : fs.node ((component u).next p) with
    | some x =>
      cases x with
      | file content => rfl
      | dir => exact ih hrest hsnoc hx htail
    | none =>
      obtain ⟨made, hmkdir, hnode⟩ := fs.mkdir_new hx (next_missing hdir hx)
      have hdirs : ∀ q, fs.node q = some .dir → made.node q = some .dir := by
        intro q hq
        rw [hnode]
        split
        · rfl
        · exact hq
      have hnew : made.node ((component u).next p) = some .dir := by
        rw [hnode, if_pos rfl]
      simp only [hmkdir]
      apply ih hrest (Disk.walk_mono hdirs hsnoc) hnew
      intro hno
      apply htail
      intro q hq content hold
      apply hno q hq content
      rw [hnode, if_neg, hold]
      intro heq
      rw [heq, hx] at hold
      contradiction

/-! ### The call -/

theorem places_filter (cs : List Bytes) :
    q ∈ Component.places p ((cs.filter (· ≠ [])).map component) ↔
      q ∈ Component.places p (cs.map component) := by
  induction cs generalizing p with
  | nil => rfl
  | cons c cs ih =>
    by_cases hc : c = []
    · have hself := Component.self_mem_places p (cs.map component)
      rw [List.filter_cons_of_neg (by simpa using hc), ih, List.map_cons, Component.places, hc,
        component_nil, Component.next, List.mem_cons]
      constructor
      · exact .inr
      · rintro (rfl | hq)
        · exact hself
        · exact hq
    · rw [List.filter_cons_of_pos (by simpa using hc), List.map_cons, List.map_cons,
        Component.places, Component.places, List.mem_cons, List.mem_cons, ih]

theorem mem_places_tokens : q ∈ Component.places [] ((tokens path).map component) ↔
    q ∈ Component.places [] (components path) :=
  places_filter (path.splitOn slash)

variable (cwd) in
theorem createFolderStructure_made (hno : NoFile fs (Component.places [] (components path))) :
    ∃ fs', createFolderStructure cwd fs path = some fs' ∧
      WithFolders fs (Component.places [] (components path)) fs' ∧
      ((∀ q ∈ Component.places [] (components path), fs.node q ≠ none) → fs' = fs) := by
  have hno' : NoFile fs (Component.places [] ((tokens path).map component)) :=
    fun q hq => hno q (mem_places_tokens.mp hq)
  have htokens : ∀ t ∈ [] ++ tokens path, slash ∉ t := tokens_no_slash path
  obtain ⟨fs', hfs', hwith, hsame⟩ := createFolders_made cwd htokens rfl fs.node_root hno'
  apply Exists.intro fs'
  apply And.intro hfs'
  constructor
  · intro q
    rw [hwith q]
    simp only [mem_places_tokens]
  · intro hall
    exact hsame fun q hq => hall q (mem_places_tokens.mp hq)

theorem createFolderStructure_file (hfile : ¬ NoFile fs (Component.places [] (components path))) :
    createFolderStructure cwd fs path = none := by
  have htokens : ∀ t ∈ [] ++ tokens path, slash ∉ t := tokens_no_slash path
  apply createFolders_file htokens rfl fs.node_root
  intro hno
  exact hfile fun q hq => hno q (mem_places_tokens.mpr hq)

theorem resolve_components (hpath : path ≠ []) :
    resolve fs cwd path = fs.walk (pathStart cwd path) (components path) := by
  rw [resolve, if_neg hpath]
  rfl

theorem createFolderStructureIn_fits (hfit : (folderPath path).length < 256) :
    createFolderStructureIn cwd fs path = createFolderStructure cwd fs path := by
  rw [createFolderStructureIn, if_neg (Nat.not_le.mpr hfit)]

theorem FolderMade.of_samePlaces (hpath : path ≠ []) (hfit : (folderPath path).length < 256)
    (h : SamePlaces fs cwd path) : MakesFolder fs cwd path := by
  obtain ⟨fs', hfs', hwith, -⟩ := createFolderStructure_made cwd h.root
  have hstart : ∀ q ∈ Component.places (pathStart cwd path) (components path),
      fs'.node q = some .dir := by
    intro q hq
    cases hx : fs.node q with
    | none => exact hwith.there h.root ((h.missing q hx).mpr hq)
    | some x =>
      cases x with
      | dir => rw [hwith.kept (by rw [hx]; simp), hx]
      | file content => exact absurd hx (h.start q hq content)
  have hall : ∀ q ∈ Component.places [] (components path), fs'.node q = some .dir :=
    fun q hq => hwith.there h.root hq
  apply Exists.intro fs'
  apply And.intro ((createFolderStructureIn_fits hfit).trans hfs')
  apply FolderMade.mk
  · simp only [stat, resolve_components hpath, fs'.walk_places hstart]
    exact hstart _ (Component.last_mem_places _ _)
  · intro q hq
    exact hwith.kept hq
  · intro q hq hnew
    have hmem := (h.missing q hq).mp (hwith.made hq hnew)
    obtain ⟨i, rfl⟩ := Component.mem_places.mp hmem
    apply Exists.intro i
    apply fs'.walk_places
    intro m hm
    exact hstart m (Component.mem_places_of_take hm)
  · have hno : NoFile fs' (Component.places [] (components path)) := by
      intro q hq content
      rw [hall q hq]
      simp
    obtain ⟨fs'', hfs'', _, hsame⟩ := createFolderStructure_made cwd hno
    have heq := hsame fun q hq => by
      rw [hall q hq]
      simp
    rw [createFolderStructureIn_fits hfit, hfs'', heq]

theorem FolderMade.samePlaces (hpath : path ≠ []) (hfit : (folderPath path).length < 256)
    (h : MakesFolder fs cwd path) : SamePlaces fs cwd path := by
  obtain ⟨fs', hfs', hmade⟩ := h
  rw [createFolderStructureIn_fits hfit] at hfs'
  have hroot : NoFile fs (Component.places [] (components path)) := by
    by_contra hfile
    rw [createFolderStructure_file hfile] at hfs'
    contradiction
  obtain ⟨fs'', hfs'', hwith, -⟩ := createFolderStructure_made cwd hroot
  obtain rfl := Option.some.inj (hfs'.symm.trans hfs'')
  have hstart : ∀ q ∈ Component.places (pathStart cwd path) (components path),
      fs'.node q = some .dir := by
    have hthere := hmade.there
    unfold stat at hthere
    rw [resolve_components hpath] at hthere
    split at hthere
    · next q hq => exact fs'.dir_of_walk hq hthere
    · contradiction
  apply SamePlaces.mk hroot
  · intro q hq content hfile
    have hdir := hstart q hq
    rw [hwith.kept (by rw [hfile]; simp), hfile] at hdir
    simp at hdir
  · intro q hq
    constructor
    · intro hmem
      obtain ⟨i, hi⟩ := hmade.made q hq (by rw [hwith.there hroot hmem]; simp)
      exact Component.mem_places.mpr ⟨i, fs'.walk_foldl hi⟩
    · intro hmem
      exact hwith.made hq (by rw [hstart q hmem]; simp)

/-- The kernel and the function both take an absolute path from the root. -/
theorem SamePlaces.of_absolute (habs : path.head? = some slash)
    (hno : NoFile fs (Component.places [] (components path))) : SamePlaces fs cwd path := by
  have hstart : pathStart cwd path = [] := if_pos habs
  apply SamePlaces.mk hno
  · rwa [hstart]
  · intro q _
    rw [hstart]

end Folders

theorem makesFolder_iff (fs : FileSystem) (cwd : List FileName) (path : Path) (hpath : path ≠ [])
    (hfit : (folderPath path).length < 256) : MakesFolder fs cwd path ↔ SamePlaces fs cwd path :=
  ⟨FolderMade.samePlaces hpath hfit, FolderMade.of_samePlaces hpath hfit⟩

theorem blank_free : (Disk.blank : FileSystem).node [nameS] ≠ some .dir := by decide

theorem blank_dir : (Disk.blank : FileSystem).node [nameS].dropLast = some .dir := by decide

def oneFolder : FileSystem := Disk.blank.put [nameS] .dir blank_free blank_dir

theorem makesFolder_oneFolder : MakesFolder oneFolder [nameS] (utf8 "/s/a/") := by
  have hno : NoFile oneFolder (Component.places [] (components (utf8 "/s/a/"))) := by
    have hplaces : ∀ q ∈ Component.places [] (components (utf8 "/s/a/")),
        oneFolder.node q = some .dir ∨ oneFolder.node q = none := by decide
    intro q hq content hfile
    rcases hplaces q hq with h | h <;> simp [h] at hfile
  have hsame : SamePlaces oneFolder [nameS] (utf8 "/s/a/") := .of_absolute (by decide) hno
  exact (makesFolder_iff oneFolder [nameS] (utf8 "/s/a/") (by decide) (by decide)).mpr hsame

/-- A relative path is made in the root, and is not there where it is looked for. -/
theorem relative_folder_elsewhere : ¬ MakesFolder oneFolder [nameS] (utf8 "a") := by
  rintro ⟨fs', hfs', hmade⟩
  have hmissing : (createFolderStructureIn [nameS] oneFolder (utf8 "a")).map
      (fun fs' => stat fs' [nameS] (utf8 "a")) = some none := by decide
  rw [hfs', Option.map_some, hmade.there] at hmissing
  simp at hmissing

end AdvancedCProjects.Bibak
