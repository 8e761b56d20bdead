import AdvancedCProjects.Base.Links
import AdvancedCProjects.Bibak.Folders
import AdvancedCProjects.Bibak.Table

/-!
# Clearing the directory of the client (BibakBOXClient.c:450-484, 633)

`clearDirectory` asks `stat`, which follows links, what an entry is. `unlink` and
`rmdir` follow them on the way only, and take away what the last name stands for.
-/

namespace AdvancedCProjects.Bibak
open Base

abbrev LinkedSystem := Disk FileName (Leaf FileName Bytes)

/-- More links on the way are `ELOOP`. -/
def maxLinks : ℕ := 40

/-- Where a path leads, and how many links may still come. -/
def follow (fs : LinkedSystem) (cwd : List FileName) (path : Path) :
    Option (List FileName × ℕ) :=
  if path = [] then none
  else Nodes.walk fs.node maxLinks (pathStart cwd path) (components path)

def statFollow (fs : LinkedSystem) (cwd : List FileName) (path : Path) :
    Option (Node (Leaf FileName Bytes)) :=
  (follow fs cwd path).bind fun found => fs.node found.1

/-- The place of the last name, which is not followed. -/
def lastEntry (fs : LinkedSystem) (cwd : List FileName) (path : Path) : Option (List FileName) :=
  match (components path).getLast? with
  | some (.down n) =>
    (Nodes.walk fs.node maxLinks (pathStart cwd path) (components path).dropLast).map
      fun found => found.1 ++ [n]
  | _ => none

def unlink (fs : LinkedSystem) (cwd : List FileName) (path : Path) : Option LinkedSystem :=
  (lastEntry fs cwd path).bind fun p => match fs.node p with
  | some (.file _) => (fs.remove p).toOption
  | _ => none

def rmdir (fs : LinkedSystem) (cwd : List FileName) (path : Path) : Option LinkedSystem :=
  (lastEntry fs cwd path).bind fun p => match fs.node p with
  | some .dir => (fs.remove p).toOption
  | _ => none

/-- The order in which `readdir` returns what was in a directory when it was opened. -/
abbrev ReadOrder := LinkedSystem → Path → List Name

def ReadOrder.Ok (order : ReadOrder) (cwd : List FileName) : Prop :=
  ∀ fs path p k, follow fs cwd path = some (p, k) → fs.node p = some .dir →
    (order fs path).Perm ([dot] :: [dot, dot] :: (fs.children p).map Subtype.val)

/-- The loop over the entries; `sub` clears a directory below. -/
def clearEntries (cwd : List FileName) (sub : Path → LinkedSystem → Option LinkedSystem)
    (directoryPath : Path) : List Name → LinkedSystem → Option LinkedSystem
  | [], fs => some fs
  | entry :: entries, fs =>
    let filePath := joinPath directoryPath entry
    match statFollow fs cwd filePath with
    | some .dir =>
      if entry ≠ [dot] ∧ entry ≠ [dot, dot] then
        (sub filePath fs).bind fun fs' =>
          clearEntries cwd sub directoryPath entries ((rmdir fs' cwd filePath).getD fs')
      else clearEntries cwd sub directoryPath entries fs
    | some (.file (.regular _)) => match unlink fs cwd filePath with
      | none => some fs
      | some fs' => clearEntries cwd sub directoryPath entries fs'
    | _ => clearEntries cwd sub directoryPath entries fs

/-- `none` when the recursion has not come to its end. -/
def clearDirectory (order : ReadOrder) (cwd : List FileName) :
    ℕ → Path → LinkedSystem → Option LinkedSystem
  | 0, _, _ => none
  | fuel + 1, directoryPath, fs =>
    if statFollow fs cwd directoryPath = some .dir then
      clearEntries cwd (clearDirectory order cwd fuel) directoryPath (order fs directoryPath) fs
    else some fs

/-! ### Paths below the directory -/

namespace Clearing
variable {fs fs' fs₀ : LinkedSystem} {cwd p q r : List FileName} {path : Path} {n : FileName}
  {names front : List FileName} {k l : ℕ} {x : Node (Leaf FileName Bytes)}

/-- The string that goes on from `path` by the names leads to `p`. -/
def At (cwd : List FileName) (path : Path) (fs : LinkedSystem) (names p : List FileName)
    (k : ℕ) : Prop :=
  Nodes.Leads fs.node (pathStart cwd path) maxLinks (components path ++ names.map .down) p k

/-- From `p` the entry `n` leads to `q`. -/
def Enters (fs : LinkedSystem) (p : List FileName) (k : ℕ) (n : FileName) (q : List FileName)
    (l : ℕ) : Prop := Nodes.Leads fs.node p k [.down n] q l

def Sub (fs fs' : LinkedSystem) : Prop := ∀ q x, fs.node q = some x → fs'.node q = some x

theorem pathStart_append (hpath : path ≠ []) (s : Bytes) :
    pathStart cwd (path ++ s) = pathStart cwd path := by
  rw [pathStart, pathStart, List.head?_append_of_ne_nil _ hpath]

theorem follow_iff (hpath : path ≠ []) :
    follow fs cwd (path ++ relativePath names) = some (p, k) ↔ At cwd path fs names p k := by
  rw [follow, if_neg (by simp [hpath]), Nodes.walk_iff, pathStart_append hpath, components_append]
  rfl

theorem at_append : At cwd path fs (names ++ [n]) q l ↔
    ∃ p k, At cwd path fs names p k ∧ Enters fs p k n q l := by
  rw [At, List.map_append, ← List.append_assoc]
  constructor
  · intro h
    exact h.split
  · rintro ⟨p, k, hat, hn⟩
    exact Nodes.Leads.append hat hn

theorem At.mono (h : At cwd path fs names p k) (hsub : Sub fs fs') :
    At cwd path fs' names p k := Nodes.Leads.mono hsub h

theorem Enters.mono (h : Enters fs p k n q l) (hsub : Sub fs fs') : Enters fs' p k n q l :=
  Nodes.Leads.mono hsub h

theorem At.unique (h : At cwd path fs names p k) (h' : At cwd path fs names q l) :
    p = q ∧ k = l := Nodes.Leads.unique h h'

theorem Enters.unique {q' : List FileName} {l' : ℕ} (h : Enters fs p k n q l)
    (h' : Enters fs p k n q' l') : q = q' ∧ l = l' := Nodes.Leads.unique h h'

theorem Sub.refl (fs : LinkedSystem) : Sub fs fs := fun _ _ h => h

theorem Sub.trans {fs'' : LinkedSystem} (h : Sub fs fs') (h' : Sub fs' fs'') : Sub fs fs'' :=
  fun q x hx => h' q x (h q x hx)

def PathsFit (cwd : List FileName) (path : Path) (fs : LinkedSystem) : Prop :=
  ∀ names p k, At cwd path fs names p k → fs.node p = some .dir →
    ∀ entry ∈ [dot] :: [dot, dot] :: (fs.children p).map Subtype.val,
      (path ++ relativePath names ++ slash :: entry).length < maxPathLength

theorem PathsFit.sub (h : PathsFit cwd path fs₀) (hsub : Sub fs fs₀) : PathsFit cwd path fs := by
  intro names p k hat hdir entry hentry
  refine h names p k (hat.mono hsub) (hsub p _ hdir) entry ?_
  simp only [List.mem_cons, List.mem_map] at hentry ⊢
  refine hentry.imp_right fun hentry => hentry.imp_right ?_
  rintro ⟨m, hm, rfl⟩
  obtain ⟨x, hx⟩ := Option.ne_none_iff_exists'.mp (fs.mem_children.mp hm)
  exact ⟨m, fs₀.mem_children.mpr (by simp [hsub _ x hx]), rfl⟩

/-! ### What is taken away -/

def Regular (fs : LinkedSystem) (q : List FileName) : Prop :=
  ∃ content, fs.node q = some (.file (.regular content))

def Without (fs : LinkedSystem) (q : List FileName) (fs' : LinkedSystem) : Prop :=
  ∀ s, fs'.node s = if s = q then none else fs.node s

/-- One `unlink` or `rmdir` of the recursion, in a directory that is reached by way of
`front`. -/
inductive Removes (cwd : List FileName) (path : Path) (front : List FileName)
    (fs : LinkedSystem) : LinkedSystem → Prop where
  | unlink {names p q : List FileName} {n : FileName} {k l : ℕ} {fs' : LinkedSystem} :
    front <+: names → At cwd path fs names p k → Enters fs p k n q l → Regular fs q →
    Without fs (p ++ [n]) fs' → Removes cwd path front fs fs'
  | rmdir {names p : List FileName} {n : FileName} {k : ℕ} {fs' : LinkedSystem} :
    front <+: names → At cwd path fs names p k → fs.node (p ++ [n]) = some .dir →
    fs.children (p ++ [n]) = [] → Without fs (p ++ [n]) fs' → Removes cwd path front fs fs'

def Steps (cwd : List FileName) (path : Path) (front : List FileName) :
    LinkedSystem → LinkedSystem → Prop :=
  Relation.ReflTransGen (Removes cwd path front)

theorem Without.sub (h : Without fs q fs') : Sub fs' fs := by
  intro s x hx
  rw [h] at hx
  split at hx
  · contradiction
  · exact hx

theorem Removes.sub (h : Removes cwd path front fs fs') : Sub fs' fs := by
  cases h with
  | unlink _ _ _ _ hwithout => exact hwithout.sub
  | rmdir _ _ _ _ hwithout => exact hwithout.sub

theorem Removes.widen (h : Removes cwd path (front ++ names) fs fs') :
    Removes cwd path front fs fs' := by
  cases h with
  | unlink hfront hat hn hregular hwithout =>
    exact .unlink ((List.prefix_append _ _).trans hfront) hat hn hregular hwithout
  | rmdir hfront hat hdir hempty hwithout =>
    exact .rmdir ((List.prefix_append _ _).trans hfront) hat hdir hempty hwithout

theorem Steps.widen (h : Steps cwd path (front ++ names) fs fs') : Steps cwd path front fs fs' := by
  induction h with
  | refl => exact .refl
  | tail _ hstep ih => exact ih.tail hstep.widen

theorem Steps.anywhere (h : Steps cwd path front fs fs') : Steps cwd path [] fs fs' := by
  rw [← List.nil_append front] at h
  exact h.widen

theorem Steps.within {front : List FileName} (h : Steps cwd path names fs fs')
    (hfront : front <+: names) : Steps cwd path front fs fs' := by
  obtain ⟨t, rfl⟩ := hfront
  exact h.widen

theorem Steps.sub (h : Steps cwd path front fs fs') : Sub fs' fs := by
  induction h with
  | refl => exact .refl _
  | tail _ hstep ih => exact hstep.sub.trans ih

theorem lastEntry_eq (hpath : path ≠ []) :
    lastEntry fs cwd (path ++ relativePath (names ++ [n])) = some q ↔
      ∃ p k, At cwd path fs names p k ∧ q = p ++ [n] := by
  have hcomponents : components (path ++ relativePath (names ++ [n])) =
      (components path ++ names.map .down) ++ [.down n] := by
    rw [components_append, List.map_append, List.append_assoc]
    rfl
  rw [lastEntry, hcomponents, List.getLast?_concat, List.dropLast_concat]
  simp only [Option.map_eq_some_iff, Prod.exists, Nodes.walk_iff, pathStart_append hpath]
  constructor
  · rintro ⟨p, k, hat, rfl⟩
    exact ⟨p, k, hat, rfl⟩
  · rintro ⟨p, k, hat, rfl⟩
    exact ⟨p, k, hat, rfl⟩

theorem Enters.cases (h : Enters fs p k n q l) : fs.node p = some .dir ∧
    (q = p ++ [n] ∧ l = k ∧ (∃ x, fs.node q = some x ∧ x.isLink = false) ∨
      l < k ∧ ∃ absolute target, fs.node (p ++ [n]) = some (.file (.link absolute target))) := by
  unfold Enters at h
  cases h with
  | next hdir hx hno hrest =>
    cases hrest
    exact ⟨hdir, .inl ⟨rfl, rfl, _, hx, hno⟩⟩
  | link hdir hlink hrest => exact ⟨hdir, .inr ⟨Nat.lt_succ_of_le hrest.le, _, _, hlink⟩⟩

theorem Enters.leaf (h : Enters fs p k n q l) (hq : Regular fs q) :
    ∃ leaf, fs.node (p ++ [n]) = some (.file leaf) := by
  obtain ⟨content, hcontent⟩ := hq
  rcases h.cases.2 with ⟨rfl, -, -⟩ | ⟨-, absolute, target, hlink⟩
  · exact ⟨_, hcontent⟩
  · exact ⟨_, hlink⟩

theorem Enters.dir (h : fs.node (p ++ [n]) = some .dir) : Enters fs p k n (p ++ [n]) k := by
  have hp : fs.node p = some .dir := fs.above (r := [n]) (by simp [h]) (List.cons_ne_nil _ _)
  exact .next hp h rfl .done

theorem unlink_file (hpath : path ≠ []) (hat : At cwd path fs names p k)
    {leaf : Leaf FileName Bytes} (hleaf : fs.node (p ++ [n]) = some (.file leaf)) :
    ∃ fs', unlink fs cwd (path ++ relativePath (names ++ [n])) = some fs' ∧
      Without fs (p ++ [n]) fs' := by
  have hentry := (lastEntry_eq (n := n) hpath).mpr ⟨p, k, hat, rfl⟩
  obtain ⟨fs', hremove, hnode⟩ := fs.remove_empty (p := p ++ [n]) (by simp [hleaf])
    (List.append_ne_nil_of_right_ne_nil _ (List.cons_ne_nil _ _)) (fs.children_file hleaf)
  refine ⟨fs', ?_, hnode⟩
  rw [unlink, hentry, Option.bind_some, hleaf, hremove]
  rfl

theorem rmdir_empty (hpath : path ≠ []) (hat : At cwd path fs names p k)
    (hdir : fs.node (p ++ [n]) = some .dir) (hempty : fs.children (p ++ [n]) = []) :
    ∃ fs', rmdir fs cwd (path ++ relativePath (names ++ [n])) = some fs' ∧
      Without fs (p ++ [n]) fs' := by
  have hentry := (lastEntry_eq (n := n) hpath).mpr ⟨p, k, hat, rfl⟩
  obtain ⟨fs', hremove, hnode⟩ := fs.remove_empty (p := p ++ [n]) (by simp [hdir])
    (List.append_ne_nil_of_right_ne_nil _ (List.cons_ne_nil _ _)) hempty
  refine ⟨fs', ?_, hnode⟩
  rw [rmdir, hentry, Option.bind_some, hdir, hremove]
  rfl

variable (cwd) in
theorem rmdir_cases (hpath : path ≠ []) (fs : LinkedSystem) (names : List FileName)
    (n : FileName) :
    (rmdir fs cwd (path ++ relativePath (names ++ [n]))).getD fs = fs ∨
      ∃ p k, At cwd path fs names p k ∧ fs.node (p ++ [n]) = some .dir ∧
        fs.children (p ++ [n]) = [] ∧
        Without fs (p ++ [n]) ((rmdir fs cwd (path ++ relativePath (names ++ [n]))).getD fs) := by
  cases h : rmdir fs cwd (path ++ relativePath (names ++ [n])) with
  | none => exact .inl rfl
  | some fs' =>
    obtain ⟨q, hq, h⟩ := Option.bind_eq_some_iff.mp h
    obtain ⟨p, k, hat, rfl⟩ := (lastEntry_eq hpath).mp hq
    split at h
    · next hdir =>
      cases hremove : fs.remove (p ++ [n]) with
      | error e =>
        rw [hremove] at h
        contradiction
      | ok fs'' =>
        rw [hremove] at h
        cases h
        obtain ⟨-, hempty, hnode⟩ := fs.remove_ok hremove
        exact .inr ⟨p, k, hat, hdir, hempty, hnode⟩
    · contradiction

variable (cwd) in
theorem rmdir_steps (hpath : path ≠ []) (fs : LinkedSystem) (names : List FileName)
    (n : FileName) : Steps cwd path names fs
      ((rmdir fs cwd (path ++ relativePath (names ++ [n]))).getD fs) := by
  rcases rmdir_cases cwd hpath fs names n with hsame | ⟨p, k, hat, hdir, hempty, hwithout⟩
  · rw [hsame]
    exact .refl
  · exact .single (.rmdir List.prefix_rfl hat hdir hempty hwithout)

/-! ### One entry -/

theorem statFollow_eq (hpath : path ≠ []) :
    statFollow fs cwd (path ++ relativePath names) = some x ↔
      ∃ p k, At cwd path fs names p k ∧ fs.node p = some x := by
  simp only [statFollow, Option.bind_eq_some_iff, Prod.exists, follow_iff hpath]

theorem relativePath_snoc (names : List FileName) (n : FileName) :
    relativePath (names ++ [n]) = relativePath names ++ slash :: n.val := by
  simp [relativePath]

/-- A name that `readdir` may return, whose path fits. -/
structure EntryOk (path : Path) (names : List FileName) (entry : Name) : Prop where
  name : entry = [dot] ∨ entry = [dot, dot] ∨ ∃ n : FileName, entry = n.val
  fits : (path ++ relativePath names ++ slash :: entry).length < maxPathLength

theorem EntryOk.path_eq {entry : Name} (h : EntryOk path names entry) :
    joinPath (path ++ relativePath names) entry = path ++ relativePath names ++ slash :: entry :=
  Listing.joinPath_of_fits h.fits

theorem EntryOk.path_name (h : EntryOk path names n.val) :
    joinPath (path ++ relativePath names) n.val = path ++ relativePath (names ++ [n]) := by
  rw [h.path_eq, relativePath_snoc, List.append_assoc]

theorem EntryOk.dots_or_name {entry : Name} (h : EntryOk path names entry) :
    (entry = [dot] ∨ entry = [dot, dot]) ∨ ∃ n : FileName, entry = n.val := by
  rcases h.name with he | he | he
  · exact .inl (.inl he)
  · exact .inl (.inr he)
  · exact .inr he

section Entries
variable {sub : Path → LinkedSystem → Option LinkedSystem} {entry : Name} {entries : List Name}

theorem clearEntries_dots (hpath : path ≠ []) (h : EntryOk path names entry)
    (hdots : entry = [dot] ∨ entry = [dot, dot]) :
    clearEntries cwd sub (path ++ relativePath names) (entry :: entries) fs =
      clearEntries cwd sub (path ++ relativePath names) entries fs := by
  have hname : ¬ (entry ≠ [dot] ∧ entry ≠ [dot, dot]) := by
    rintro ⟨hdot, hdotdot⟩
    exact hdots.elim hdot hdotdot
  have hslash : slash ∉ entry := by
    rcases hdots with rfl | rfl <;> decide
  have hcomponent : component entry = .here ∨ component entry = .up :=
    hdots.imp (fun he => by rw [he]; decide) fun he => by rw [he]; decide
  have hcomponents : components (path ++ (relativePath names ++ slash :: entry)) =
      (components path ++ names.map .down) ++ [component entry] := by
    rw [← List.append_assoc, components, List.splitOn_append_cons_self,
      List.splitOn_eq_singleton hslash, List.map_append]
    exact congrArg (· ++ [component entry]) (components_append path names)
  rw [clearEntries, h.path_eq]
  simp only [if_neg hname]
  split
  · rfl
  · next content hstat =>
    obtain ⟨⟨q, l⟩, hfollow, hq⟩ := Option.bind_eq_some_iff.mp hstat
    rw [List.append_assoc, follow, if_neg (by simp [hpath]), Nodes.walk_iff,
      pathStart_append hpath, hcomponents] at hfollow
    obtain ⟨p, k, -, hlast⟩ := hfollow.split
    have hdir (hp : fs.node p = some .dir) : fs.node ((component entry).next p) = some .dir := by
      rcases hcomponent with hc | hc
      · rw [hc]
        exact hp
      · rw [hc]
        exact fs.node_dropLast (by simp [hp])
    cases hlast with
    | next hp _ _ hdone =>
      cases hdone
      rw [hdir hp] at hq
      cases hq
    | link hp hlink =>
      rw [hdir hp] at hlink
      cases hlink
  · rfl

/-- What the loop does at an entry. -/
inductive EntryResult (cwd : List FileName) (path : Path)
    (sub : Path → LinkedSystem → Option LinkedSystem) (names : List FileName) (n : FileName)
    (fs : LinkedSystem) : Option LinkedSystem → Prop where
  | dir {q : List FileName} {l : ℕ} : At cwd path fs (names ++ [n]) q l →
    fs.node q = some .dir → EntryResult cwd path sub names n fs
      ((sub (path ++ relativePath (names ++ [n])) fs).map fun fs' =>
        (rmdir fs' cwd (path ++ relativePath (names ++ [n]))).getD fs')
  | file {p q : List FileName} {k l : ℕ} {fs' : LinkedSystem} : At cwd path fs names p k →
    Enters fs p k n q l → Regular fs q → Without fs (p ++ [n]) fs' →
    EntryResult cwd path sub names n fs (some fs')
  | skipped : (∀ q l, At cwd path fs (names ++ [n]) q l → fs.node q ≠ some .dir ∧ ¬ Regular fs q) →
    EntryResult cwd path sub names n fs (some fs)

variable (fs cwd sub) in
theorem clearEntries_name (hpath : path ≠ []) (h : EntryOk path names n.val) :
    ∃ result, EntryResult cwd path sub names n fs result ∧ ∀ entries,
      clearEntries cwd sub (path ++ relativePath names) (n.val :: entries) fs =
        result.bind (clearEntries cwd sub (path ++ relativePath names) entries) := by
  have hname : n.val ≠ [dot] ∧ n.val ≠ [dot, dot] := n.property.2
  by_cases hdir : statFollow fs cwd (path ++ relativePath (names ++ [n])) = some .dir
  · obtain ⟨q, l, hat, hq⟩ := (statFollow_eq hpath).mp hdir
    refine ⟨_, .dir hat hq, fun entries => ?_⟩
    rw [clearEntries, h.path_name, Option.bind_map]
    simp only [hdir, if_pos hname]
    rfl
  by_cases hregular : ∃ content,
      statFollow fs cwd (path ++ relativePath (names ++ [n])) = some (.file (.regular content))
  · obtain ⟨content, hcontent⟩ := hregular
    obtain ⟨q, l, hat, hq⟩ := (statFollow_eq hpath).mp hcontent
    obtain ⟨p, k, hat, hn⟩ := at_append.mp hat
    obtain ⟨leaf, hleaf⟩ := hn.leaf ⟨content, hq⟩
    obtain ⟨fs', hunlink, hwithout⟩ := unlink_file hpath hat hleaf
    refine ⟨_, .file hat hn ⟨content, hq⟩ hwithout, fun entries => ?_⟩
    rw [clearEntries, h.path_name]
    simp only [hcontent, hunlink]
    rfl
  · refine ⟨_, .skipped fun q l hat => ⟨fun hq => ?_, ?_⟩, fun entries => ?_⟩
    · exact hdir ((statFollow_eq hpath).mpr ⟨q, l, hat, hq⟩)
    · rintro ⟨content, hcontent⟩
      exact hregular ⟨content, (statFollow_eq hpath).mpr ⟨q, l, hat, hcontent⟩⟩
    · rw [clearEntries, h.path_name]
      split
      · next hstat => exact (hdir hstat).elim
      · next content hstat => exact (hregular ⟨content, hstat⟩).elim
      · rfl

theorem clearEntries_next (hpath : path ≠ []) (hentry : EntryOk path names n.val)
    (h : clearEntries cwd sub (path ++ relativePath names) (n.val :: entries) fs = some fs') :
    ∃ fs₁, EntryResult cwd path sub names n fs (some fs₁) ∧
      clearEntries cwd sub (path ++ relativePath names) entries fs₁ = some fs' := by
  obtain ⟨result, hresult, heq⟩ := clearEntries_name fs cwd sub hpath hentry
  rw [heq] at h
  obtain ⟨fs₁, rfl, hrest⟩ := Option.bind_eq_some_iff.mp h
  exact ⟨fs₁, hresult, hrest⟩

theorem clearEntries_append (hpath : path ≠ []) {more : List Name}
    (hentries : ∀ entry ∈ entries, EntryOk path names entry) :
    clearEntries cwd sub (path ++ relativePath names) (entries ++ more) fs =
      (clearEntries cwd sub (path ++ relativePath names) entries fs).bind
        (clearEntries cwd sub (path ++ relativePath names) more) := by
  induction entries generalizing fs with
  | nil => rfl
  | cons entry entries ih =>
    have hentry := hentries entry List.mem_cons_self
    have hrest : ∀ e ∈ entries, EntryOk path names e :=
      fun e he => hentries e (List.mem_cons_of_mem _ he)
    rcases hentry.dots_or_name with hdots | ⟨n, rfl⟩
    · rw [List.cons_append, clearEntries_dots hpath hentry hdots,
        clearEntries_dots hpath hentry hdots, ih hrest]
    · obtain ⟨result, -, heq⟩ := clearEntries_name fs cwd sub hpath hentry
      rw [List.cons_append, heq, heq]
      cases result with
      | none => rfl
      | some fs₁ => exact ih hrest

theorem EntryResult.steps (hpath : path ≠ [])
    (hresult : EntryResult cwd path sub names n fs (some fs'))
    (hsub : ∀ fs', sub (path ++ relativePath (names ++ [n])) fs = some fs' →
      Steps cwd path (names ++ [n]) fs fs') : Steps cwd path names fs fs' := by
  generalize hsome : some fs' = result at hresult
  cases hresult with
  | dir hat hdir =>
    obtain ⟨fs₂, hcleared, rfl⟩ := Option.map_eq_some_iff.mp hsome.symm
    exact (hsub fs₂ hcleared).widen.trans (rmdir_steps cwd hpath fs₂ names n)
  | file hat hn hq hwithout =>
    cases hsome
    exact .single (.unlink List.prefix_rfl hat hn hq hwithout)
  | skipped =>
    cases hsome
    exact .refl

/-- What `sub` takes away is in the directory that it is called for. -/
def StepsBelow (cwd : List FileName) (path : Path) (sub : Path → LinkedSystem → Option LinkedSystem)
    (names : List FileName) : Prop :=
  ∀ n fs fs', PathsFit cwd path fs → sub (path ++ relativePath (names ++ [n])) fs = some fs' →
    Steps cwd path (names ++ [n]) fs fs'

theorem clearEntries_steps (hpath : path ≠ []) (hsub : StepsBelow cwd path sub names)
    (hentries : ∀ entry ∈ entries, EntryOk path names entry) (hfit : PathsFit cwd path fs)
    (h : clearEntries cwd sub (path ++ relativePath names) entries fs = some fs') :
    Steps cwd path names fs fs' := by
  induction entries generalizing fs with
  | nil =>
    cases h
    exact .refl
  | cons entry entries ih =>
    have hentry := hentries entry List.mem_cons_self
    have hrest : ∀ e ∈ entries, EntryOk path names e :=
      fun e he => hentries e (List.mem_cons_of_mem _ he)
    rcases hentry.dots_or_name with hdots | ⟨n, rfl⟩
    · rw [clearEntries_dots hpath hentry hdots] at h
      exact ih hrest hfit h
    · obtain ⟨fs₁, hresult, hlast⟩ := clearEntries_next hpath hentry h
      have hsteps := hresult.steps hpath fun fs' => hsub n fs fs' hfit
      exact hsteps.trans (ih hrest (hfit.sub hsteps.sub) hlast)

theorem clearEntries_ends (hpath : path ≠ []) (hsub : StepsBelow cwd path sub names)
    (hentries : ∀ entry ∈ entries, EntryOk path names entry) (hfit : PathsFit cwd path fs)
    (hends : ∀ n q l fs', Sub fs' fs → At cwd path fs' (names ++ [n]) q l →
      ∃ fs'', sub (path ++ relativePath (names ++ [n])) fs' = some fs'') :
    ∃ fs', clearEntries cwd sub (path ++ relativePath names) entries fs = some fs' := by
  induction entries generalizing fs with
  | nil => exact ⟨fs, rfl⟩
  | cons entry entries ih =>
    have hentry := hentries entry List.mem_cons_self
    have hrest : ∀ e ∈ entries, EntryOk path names e :=
      fun e he => hentries e (List.mem_cons_of_mem _ he)
    have next {fs₁ : LinkedSystem} (hsteps : Steps cwd path names fs fs₁) :
        ∃ fs', clearEntries cwd sub (path ++ relativePath names) entries fs₁ = some fs' :=
      ih hrest (hfit.sub hsteps.sub) fun n q l fs₂ hsub₂ => hends n q l fs₂ (hsub₂.trans hsteps.sub)
    rcases hentry.dots_or_name with hdots | ⟨n, rfl⟩
    · rw [clearEntries_dots hpath hentry hdots]
      exact next .refl
    · obtain ⟨result, hresult, heq⟩ := clearEntries_name fs cwd sub hpath hentry
      rw [heq]
      cases hresult with
      | @dir q l hat hdir =>
        obtain ⟨fs₁, hfs₁⟩ := hends n q l fs (.refl fs) hat
        rw [hfs₁]
        exact next ((hsub n fs fs₁ hfit hfs₁).widen.trans (rmdir_steps cwd hpath fs₁ names n))
      | file hat hn hq hwithout => exact next (.single (.unlink List.prefix_rfl hat hn hq hwithout))
      | skipped => exact next .refl

end Entries

variable {order : ReadOrder}

theorem order_entries (horder : order.Ok cwd) (hpath : path ≠ [])
    (hfit : PathsFit cwd path fs) (hat : At cwd path fs names p k)
    (hdir : fs.node p = some .dir) :
    ∀ entry ∈ order fs (path ++ relativePath names), EntryOk path names entry := by
  intro entry hentry
  have hmem := (horder fs _ p k ((follow_iff hpath).mpr hat) hdir).mem_iff.mp hentry
  refine ⟨?_, hfit names p k hat hdir entry hmem⟩
  rcases List.mem_cons.mp hmem with he | hmem
  · exact .inl he
  rcases List.mem_cons.mp hmem with he | hmem
  · exact .inr (.inl he)
  · obtain ⟨n, -, hn⟩ := List.mem_map.mp hmem
    exact .inr (.inr ⟨n, hn.symm⟩)

theorem clearDirectory_eq (hpath : path ≠ []) (hat : At cwd path fs names p k)
    (hdir : fs.node p = some .dir) (fuel : ℕ) :
    clearDirectory order cwd (fuel + 1) (path ++ relativePath names) fs =
      clearEntries cwd (clearDirectory order cwd fuel) (path ++ relativePath names)
        (order fs (path ++ relativePath names)) fs := by
  rw [clearDirectory, if_pos ((statFollow_eq hpath).mpr ⟨p, k, hat, hdir⟩)]

theorem clearDirectory_steps (horder : order.Ok cwd) (hpath : path ≠ []) (fuel : ℕ)
    (hfit : PathsFit cwd path fs)
    (h : clearDirectory order cwd fuel (path ++ relativePath names) fs = some fs') :
    Steps cwd path names fs fs' := by
  induction fuel generalizing fs fs' names with
  | zero => contradiction
  | succ fuel ih =>
    by_cases hstat : statFollow fs cwd (path ++ relativePath names) = some .dir
    · obtain ⟨p, k, hat, hdir⟩ := (statFollow_eq hpath).mp hstat
      rw [clearDirectory_eq hpath hat hdir] at h
      exact clearEntries_steps hpath (fun n fs fs' hfit h => ih hfit h)
        (order_entries horder hpath hfit hat hdir) hfit h
    · rw [clearDirectory, if_neg hstat] at h
      cases h
      exact .refl

theorem clearDirectory_below (horder : order.Ok cwd) (hpath : path ≠ []) (fuel : ℕ)
    (names : List FileName) : StepsBelow cwd path (clearDirectory order cwd fuel) names :=
  fun _ _ _ hfit h => clearDirectory_steps horder hpath fuel hfit h

/-- Each call goes down in the tree or follows a link. -/
theorem clearDirectory_ends (horder : order.Ok cwd) (hpath : path ≠ [])
    (hfit : PathsFit cwd path fs) {height fuel : ℕ}
    (hheight : ∀ q, fs.node q ≠ none → q.length < height)
    (hat : At cwd path fs names p k)
    (hfuel : k * height + height - p.length < fuel) :
    ∃ fs', clearDirectory order cwd fuel (path ++ relativePath names) fs = some fs' := by
  induction fuel generalizing fs names p k with
  | zero => omega
  | succ fuel ih =>
    by_cases hstat : statFollow fs cwd (path ++ relativePath names) = some .dir
    · obtain ⟨p', k', hat', hdir⟩ := (statFollow_eq hpath).mp hstat
      obtain ⟨rfl, rfl⟩ := hat.unique hat'
      rw [clearDirectory_eq hpath hat hdir]
      refine clearEntries_ends hpath (clearDirectory_below horder hpath fuel names)
        (order_entries horder hpath hfit hat hdir) hfit ?_
      intro n q l fs' hsub hq
      have hheight' (s : List FileName) (hs : fs'.node s ≠ none) : s.length < height := by
        obtain ⟨x, hx⟩ := Option.ne_none_iff_exists'.mp hs
        exact hheight s (by simp [hsub s x hx])
      refine ih (hfit.sub hsub) hheight' hq ?_
      obtain ⟨p', k', hat', hn⟩ := at_append.mp hq
      obtain ⟨rfl, rfl⟩ := hat.unique (hat'.mono hsub)
      have hplen := hheight p (by simp [hdir])
      rcases hn.cases.2 with ⟨rfl, rfl, x, hx, -⟩ | ⟨hlt, -⟩
      · have hqlen := hheight' (p ++ [n]) (by simp [hx])
        rw [List.length_append, List.length_singleton] at hqlen ⊢
        omega
      · have hmul : (l + 1) * height ≤ k * height := Nat.mul_le_mul_right height hlt
        rw [Nat.succ_mul] at hmul
        omega
    · rw [clearDirectory, if_neg hstat]
      exact ⟨fs, rfl⟩

end Clearing
end AdvancedCProjects.Bibak
