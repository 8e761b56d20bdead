import AdvancedCProjects.Base.Disk
import AdvancedCProjects.Base.Lists
import AdvancedCProjects.Bibak.Changes

/-!
# Path strings on a disk

How the kernel resolves the paths that both programs hand to it. There are no
links, and every call has the permissions it needs.
-/

namespace AdvancedCProjects.Bibak
open Base

/-- What a directory can hold besides `.` and `..`. -/
def FileNameOk (n : Name) : Prop := Listing.NameOk n ∧ n ≠ [dot] ∧ n ≠ [dot, dot]

instance : DecidablePred FileNameOk := fun _ => inferInstanceAs (Decidable (_ ∧ _))

abbrev FileName := {n : Name // FileNameOk n}

abbrev FileSystem := Disk FileName Bytes

def emptied : Node Bytes → Node Bytes
  | .dir => .dir
  | .file _ => .file []

def component (c : Bytes) : Component FileName :=
  if h : FileNameOk c then .down ⟨c, h⟩
  else if c = [dot, dot] then .up
  else .here

/-- Where a path leads; the last component need not exist. -/
def resolve (fs : FileSystem) (cwd : List FileName) (path : Path) :
    Except Errno (List FileName) :=
  if path = [] then .error .noEntry
  else fs.walk (if path.head? = some slash then [] else cwd) ((path.splitOn slash).map component)

def stat (fs : FileSystem) (cwd : List FileName) (path : Path) : Option (Node Bytes) :=
  match resolve fs cwd path with
  | .ok p => fs.node p
  | .error _ => none

/-- What `readdir` returns until the end of the stream. -/
def opendir (fs : FileSystem) (cwd : List FileName) (path : Path) : Option (List Name) :=
  match resolve fs cwd path with
  | .ok p =>
    if fs.node p = some .dir then some ([dot] :: [dot, dot] :: (fs.children p).map Subtype.val)
    else none
  | .error _ => none

/-- `fopen` for writing, and what is in the file at `fclose`. -/
def writeFile (fs : FileSystem) (cwd : List FileName) (path : Path) (content : Bytes) :
    Except Errno FileSystem :=
  (resolve fs cwd path).bind fun p => fs.save p content

/-- The string that leads down through `names`. -/
def relativePath (names : List FileName) : Path := names.flatMap fun n => slash :: n.val

section Paths
variable {fs fs' : FileSystem} {cwd p r : List FileName} {path : Path}

@[simp] theorem relativePath_nil : relativePath [] = [] := rfl

@[simp] theorem relativePath_cons (n : FileName) :
    relativePath (n :: r) = slash :: n.val ++ relativePath r := rfl

theorem FileName.no_slash (n : FileName) : slash ∉ n.val := n.property.1.2.1

@[simp] theorem component_name (n : FileName) : component n.val = .down n := by
  rw [component, dif_pos n.property]

theorem splitOn_below : (path ++ relativePath r).splitOn slash
    = path.splitOn slash ++ r.map Subtype.val := by
  have hnames : ∀ name ∈ r.map Subtype.val, slash ∉ name := by
    intro name hname
    obtain ⟨n, -, rfl⟩ := List.mem_map.mp hname
    exact FileName.no_slash n
  have hr : relativePath r = (r.map Subtype.val).flatMap (slash :: ·) := by
    rw [relativePath, List.flatMap_map]
  rw [hr, splitOn_flatMap_cons hnames]

theorem relativePath_injective : Function.Injective relativePath := by
  intro r s heq
  have hr : ([] ++ relativePath r).splitOn slash = _ := splitOn_below
  rw [heq, splitOn_below] at hr
  exact List.map_injective_iff.mpr Subtype.val_injective (List.append_cancel_left hr).symm

theorem component_names (r : List FileName) :
    (r.map Subtype.val).map component = r.map Component.down := by
  rw [List.map_map]
  exact List.map_congr_left fun n _ => component_name n

theorem resolve_ne_nil (h : resolve fs cwd path = .ok p) : path ≠ [] := by
  intro hnil
  simp [resolve, hnil] at h

theorem resolve_append (h : resolve fs cwd path = .ok p) :
    resolve fs cwd (path ++ relativePath r) = fs.walk p (r.map .down) := by
  have hpath := resolve_ne_nil h
  have hne : path ++ relativePath r ≠ [] := List.append_ne_nil_of_left_ne_nil hpath _
  unfold resolve at h ⊢
  rw [if_neg hpath] at h
  rw [if_neg hne, List.head?_append_of_ne_nil _ hpath, splitOn_below, List.map_append,
    component_names, Disk.walk_append, h]
  rfl

theorem resolve_below (h : resolve fs cwd path = .ok p)
    (hr : r = [] ∨ fs.node (p ++ r.dropLast) = some .dir) :
    resolve fs cwd (path ++ relativePath r) = .ok (p ++ r) := by
  rw [resolve_append h, fs.walk_down hr]

theorem resolve_mono (hdirs : ∀ q, fs.node q = some .dir → fs'.node q = some .dir)
    (h : resolve fs cwd path = .ok p) : resolve fs' cwd path = .ok p := by
  have hpath := resolve_ne_nil h
  unfold resolve at h ⊢
  rw [if_neg hpath] at h ⊢
  exact Disk.walk_mono hdirs h

theorem resolve_there (h : resolve fs cwd path = .ok p) (hr : fs.node (p ++ r) ≠ none) :
    resolve fs cwd (path ++ relativePath r) = .ok (p ++ r) := by
  refine resolve_below h ?_
  by_cases hnil : r = []
  · exact .inl hnil
  · have hdir := fs.node_dropLast hr
    rw [List.dropLast_append_of_ne_nil hnil] at hdir
    exact .inr hdir

theorem stat_below (h : resolve fs cwd path = .ok p) (hr : fs.node (p ++ r) ≠ none) :
    stat fs cwd (path ++ relativePath r) = fs.node (p ++ r) := by
  simp only [stat, resolve_there h hr]

end Paths
end AdvancedCProjects.Bibak
