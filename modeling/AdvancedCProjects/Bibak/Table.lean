import AdvancedCProjects.Base.Lists
import AdvancedCProjects.Bibak.Tree

/-!
# The table of modification times (BibakBOXClient.c)

A table is a block of `FileModificationInfo` entries together with the number
of entries in use; only the entries below that number mean anything.
-/

namespace AdvancedCProjects.Bibak
open Base

abbrev Block := ℕ → FileModificationInfo

def Block.entries (b : Block) (n : ℕ) : List FileModificationInfo := (List.range n).map b

namespace Block
variable {b : Block} {n : ℕ}

@[simp] theorem entries_length (b : Block) (n : ℕ) : (b.entries n).length = n := by
  simp [entries]

theorem mem_entries {e : FileModificationInfo} : e ∈ b.entries n ↔ ∃ i < n, b i = e := by
  simp [entries]

theorem entries_update (b : Block) (n : ℕ) (e : FileModificationInfo) :
    entries (Function.update b n e) (n + 1) = b.entries n ++ [e] := by
  have hold : entries (Function.update b n e) n = b.entries n := by
    refine List.map_congr_left fun i hi => ?_
    exact Function.update_of_ne (List.mem_range.mp hi).ne _ _
  simp only [entries, List.range_succ, List.map_append, List.map_singleton,
    Function.update_self] at hold ⊢
  rw [hold]

end Block

structure Snapshot where
  files : Block
  count : ℕ

def Snapshot.entries (t : Snapshot) : List FileModificationInfo := t.files.entries t.count

namespace Listing

/-- `saveFileModificationTimes(directory, files, &count)` on a listing; `walk_listing` takes
it to the walk over the disk. Reaching the limit leaves the loop over this directory only;
the callers' loops go on. -/
def saveFileModificationTimes (directory : Path) : Listing → Snapshot → Snapshot
  | nil, t => t
  | dir n _ sub rest, t =>
    rest.saveFileModificationTimes directory
      (sub.saveFileModificationTimes (joinPath directory n) t)
  | file n mtime _ rest, t =>
    if t.count ≥ maxFiles then t
    else rest.saveFileModificationTimes directory
      ⟨Function.update t.files t.count ⟨joinPath directory n, mtime⟩, t.count + 1⟩

/-- Every path below `d` fits the path buffers with its terminator. -/
def Fits (d : Path) (l : Listing) : Prop := ∀ f ∈ l.nodes d, f.path.length < maxPathLength

instance (d : Path) (l : Listing) : Decidable (l.Fits d) :=
  inferInstanceAs (Decidable (∀ _ ∈ _, _))

def info (f : Inode) : FileModificationInfo := ⟨f.path, f.mtime⟩

theorem joinPath_of_fits {d : Path} {n : Name} (h : (d ++ slash :: n).length < maxPathLength) :
    joinPath d n = d ++ slash :: n :=
  List.take_of_length_le (by omega)

theorem saveFileModificationTimes_entries (l : Listing) (d : Path) (hl : l.Fits d) (t : Snapshot)
    (ht : t.count ≤ maxFiles) :
    (l.saveFileModificationTimes d t).entries
      = (t.entries ++ (l.files d).map info).take maxFiles := by
  have whole : ∀ t : Snapshot, t.count ≤ maxFiles → t.entries.take maxFiles = t.entries :=
    fun t h => List.take_of_length_le (by simpa [Snapshot.entries] using h)
  have count_le : ∀ t u : Snapshot, ∀ xs, u.entries = (t.entries ++ xs).take maxFiles →
      u.count ≤ maxFiles := by
    intro t u xs h
    have hlen := congrArg List.length h
    simp only [Snapshot.entries, Block.entries_length, List.length_take] at hlen
    omega
  induction l generalizing d t with
  | nil => simp [saveFileModificationTimes, whole t ht]
  | file n mtime c rest ih =>
    have hfit := hl ⟨d ++ slash :: n, false, mtime, c⟩ List.mem_cons_self
    simp only [saveFileModificationTimes, files_file, List.map_cons, info]
    split
    · next hfull =>
      have hlen : t.entries.length = maxFiles := by
        simp only [Snapshot.entries, Block.entries_length]; omega
      rw [List.take_append_of_le_length hlen.ge, whole t ht]
    · next hroom =>
      rw [ih d (fun f hf => hl f (List.mem_cons_of_mem _ hf)) _ (by dsimp only; omega)]
      simp only [Snapshot.entries, Block.entries_update, joinPath_of_fits hfit, List.append_assoc,
        List.singleton_append]
  | dir n mtime sub rest ihs ihr =>
    have hfit := hl ⟨d ++ slash :: n, true, mtime, []⟩ List.mem_cons_self
    have hsub : sub.Fits (d ++ slash :: n) :=
      fun f hf => hl f (List.mem_cons_of_mem _ (List.mem_append_left _ hf))
    have hrest : rest.Fits d :=
      fun f hf => hl f (List.mem_cons_of_mem _ (List.mem_append_right _ hf))
    simp only [saveFileModificationTimes, files_dir, List.map_append, joinPath_of_fits hfit]
    have hs := ihs _ hsub t ht
    rw [ihr d hrest _ (count_le _ _ _ hs), hs, take_append_take, List.append_assoc]

end Listing

/-- `remove_base_path(path, base_path, new_path)`. -/
def removeBasePath (path basePath : Path) : Path :=
  let newPath :=
    if path.length ≥ basePath.length ∧ path.take basePath.length = basePath then
      match path.drop basePath.length with
      | [] => []
      | c :: rest => if c = slash ∨ c = backslash then rest else c :: rest
    else path
  match newPath with
  | [] => [slash]
  | c :: rest => if c ≠ slash then slash :: c :: rest else c :: rest

theorem removeBasePath_below (base r : Path) (hr : r.head? ≠ some slash) :
    removeBasePath (base ++ slash :: r) base = slash :: r := by
  have hcond : (base ++ slash :: r).length ≥ base.length ∧
      (base ++ slash :: r).take base.length = base := by simp
  have hrest : (base ++ slash :: r).drop base.length = slash :: r := by simp
  simp only [removeBasePath, if_pos hcond, hrest, true_or, if_true]
  cases r with
  | nil => rfl
  | cons c r =>
    have hc : c ≠ slash := fun h => hr (by simp [h])
    simp [hc]

theorem removeBasePath_eq (path basePath : Path) :
    ∃ rest, removeBasePath path basePath = slash :: rest ∧ rest <:+ path := by
  have cut : ∀ p : Path, ∃ rest, (match p with
      | [] => [slash]
      | c :: rest => if c ≠ slash then slash :: c :: rest else c :: rest) = slash :: rest ∧
      rest <:+ p := by
    intro p
    cases p with
    | nil => exact ⟨[], rfl, List.nil_suffix⟩
    | cons c rest =>
      by_cases hc : c = slash
      · exact ⟨rest, by simp [hc], List.suffix_cons c rest⟩
      · exact ⟨c :: rest, by simp [hc], List.suffix_refl _⟩
  have hsuf : (if path.length ≥ basePath.length ∧ path.take basePath.length = basePath then
      match path.drop basePath.length with
      | [] => []
      | c :: rest => if c = slash ∨ c = backslash then rest else c :: rest
    else path) <:+ path := by
    have hdrop := List.drop_suffix basePath.length path
    split
    · split
      · exact List.nil_suffix
      · next c rest heq =>
        rw [heq] at hdrop
        split
        · exact (List.suffix_cons c rest).trans hdrop
        · exact hdrop
    · exact List.suffix_refl _
  obtain ⟨rest, hrest, hr⟩ := cut _
  exact ⟨rest, hrest, hr.trans hsuf⟩

theorem append_removeBasePath (l : Listing) (hl : l.NamesOk) (base : Path) (f : Inode)
    (hf : f ∈ l.nodes base) : base ++ removeBasePath f.path base = f.path := by
  obtain ⟨n, hn, r, hp, _⟩ := l.nodes_under base f hf
  have hok := l.nameOk_of_mem hl n hn
  have hhead : (n ++ r).head? ≠ some slash := by
    cases hc : n with
    | nil => exact absurd hc hok.1
    | cons c n' =>
      intro h
      have hs : c = slash := by simpa using h
      exact hok.2.1 (by simp [hc, hs])
  rw [hp, removeBasePath_below base (n ++ r) hhead]

/-- One round of the shift in `remove_file_from_path`: the path is copied first,
then the time. -/
def shiftEntry (files : Block) (j : ℕ) : Block :=
  let files := Function.update files j { files j with filepath := (files (j + 1)).filepath }
  Function.update files j { files j with lastModifiedTime := (files (j + 1)).lastModifiedTime }

/-- `remove_file_from_path(filepath, fileInfos)`, scanning from entry `i` with
`fuel` entries left. The argument is a pointer: it is read again at every
comparison. -/
def removeFileFromPath (filepath : Block → Path) (files : Block) (globCount : ℕ) (i : ℕ) :
    ℕ → Block × ℕ
  | 0 => (files, globCount)
  | fuel + 1 =>
    if (files i).filepath = filepath files then
      ((List.range' i (globCount - 1 - i)).foldl shiftEntry files, globCount - 1)
    else removeFileFromPath filepath files globCount (i + 1) fuel

theorem shiftEntry_eq (files : Block) (j : ℕ) :
    shiftEntry files j = Function.update files j (files (j + 1)) := by
  simp [shiftEntry]

theorem shiftEntries_apply (files : Block) (i n j : ℕ) :
    (List.range' i n).foldl shiftEntry files j =
      if i ≤ j ∧ j < i + n then files (j + 1) else files j := by
  induction n generalizing i files with
  | zero =>
    rw [if_neg (by omega)]
    rfl
  | succ n ih =>
    rw [List.range'_succ, List.foldl_cons, ih, shiftEntry_eq]
    by_cases hj : i + 1 ≤ j ∧ j < i + 1 + n
    · rw [if_pos hj, if_pos (by omega), Function.update_of_ne (by omega)]
    · rw [if_neg hj]
      by_cases heq : j = i
      · rw [heq, Function.update_self, if_pos (by omega)]
      · rw [Function.update_of_ne heq, if_neg (by omega)]

theorem removeFileFromPath_found (filepath : Block → Path) (files : Block)
    (globCount i fuel j : ℕ) (hij : i ≤ j) (hj : j < i + fuel)
    (hbefore : ∀ k, i ≤ k → k < j → (files k).filepath ≠ filepath files)
    (hfound : (files j).filepath = filepath files) :
    removeFileFromPath filepath files globCount i fuel =
      ((List.range' j (globCount - 1 - j)).foldl shiftEntry files, globCount - 1) := by
  induction fuel generalizing i with
  | zero => omega
  | succ fuel ih =>
    by_cases heq : i = j
    · subst heq
      rw [removeFileFromPath, if_pos hfound]
    · rw [removeFileFromPath, if_neg (hbefore i le_rfl (by omega))]
      apply ih (i + 1) (by omega) (by omega)
      intro k hik hkj
      exact hbefore k (by omega) hkj

theorem removeFileFromPath_absent (filepath : Block → Path) (files : Block) (globCount i fuel : ℕ)
    (h : ∀ j, i ≤ j → j < i + fuel → (files j).filepath ≠ filepath files) :
    removeFileFromPath filepath files globCount i fuel = (files, globCount) := by
  induction fuel generalizing i with
  | zero => rfl
  | succ fuel ih =>
    simp only [removeFileFromPath, if_neg (h i le_rfl (by omega))]
    exact ih (i + 1) fun j hj hlt => h j (by omega) (by omega)

end AdvancedCProjects.Bibak
