import AdvancedCProjects.Bibak.Table

/-!
# Removing a path from the table (BibakBOXClient.c:275-288)

The argument of `remove_file_from_path` is a string of its own, or a pointer to
the path of an entry, as `check_update` passes it. The shift overwrites what
such a pointer points to.
-/

namespace AdvancedCProjects.Bibak
open Base

inductive PathArgument where
  | string (path : Path)
  | entry (k : ℕ)
  deriving DecidableEq

/-- The string that is compared, with the table as it is at that moment. -/
def PathArgument.read : PathArgument → Block → Path
  | string path, _ => path
  | entry k, files => (files k).filepath

section Shift
variable {files : Block} {n i : ℕ}

theorem Block.entries_getElem? (hi : i < n) : (files.entries n)[i]? = some (files i) := by
  rw [entries, List.getElem?_map, List.getElem?_range hi, Option.map_some]

/-- Path and time move together, so the entries are those of before without entry `i`. -/
theorem shiftEntries_entries (hi : i < n) :
    Block.entries ((List.range' i (n - 1 - i)).foldl shiftEntry files) (n - 1) =
      (files.entries n).eraseIdx i := by
  refine List.ext_getElem? fun j => ?_
  rw [List.getElem?_eraseIdx]
  by_cases hj : j < n - 1
  · rw [Block.entries_getElem? hj, shiftEntries_apply]
    by_cases hji : j < i
    · rw [if_pos hji, if_neg (by omega), Block.entries_getElem? (by omega)]
    · rw [if_neg hji, if_pos (by omega), Block.entries_getElem? (by omega)]
  · have hfew : (files.entries n).length ≤ j + 1 := by
      rw [Block.entries_length]
      omega
    rw [if_neg (by omega), List.getElem?_eq_none hfew]
    refine List.getElem?_eq_none ?_
    rw [Block.entries_length]
    omega

end Shift

theorem removeFileFromPath_others (argument : PathArgument) (files : Block) (globCount : ℕ)
    (distinct : ((files.entries globCount).map (·.filepath)).Nodup) :
    let path := argument.read files
    let result := removeFileFromPath argument.read files globCount 0 globCount
    (path ∈ (files.entries globCount).map (·.filepath) →
      result.2 + 1 = globCount ∧
      result.1.entries result.2 = (files.entries globCount).filter (·.filepath ≠ path)) ∧
    (path ∉ (files.entries globCount).map (·.filepath) → result = (files, globCount)) := by
  dsimp only
  constructor
  · intro hmem
    obtain ⟨e, he, hpath⟩ := List.mem_map.mp hmem
    obtain ⟨i, hi, rfl⟩ := Block.mem_entries.mp he
    have hentry : (files.entries globCount)[i]? = some (files i) := Block.entries_getElem? hi
    have hbefore : ∀ k, 0 ≤ k → k < i → (files k).filepath ≠ argument.read files := by
      intro k _ hk heq
      have hk' : (files.entries globCount)[k]? = some (files k) :=
        Block.entries_getElem? (hk.trans hi)
      have hsame : ((files.entries globCount).map (·.filepath))[k]? =
          ((files.entries globCount).map (·.filepath))[i]? := by
        rw [List.getElem?_map, List.getElem?_map, hk', hentry, Option.map_some, Option.map_some,
          heq, hpath]
      have hlt : k < ((files.entries globCount).map (·.filepath)).length := by
        rw [List.length_map, Block.entries_length]
        omega
      exact absurd ((List.getElem?_inj hlt distinct).mp hsame) hk.ne
    have hremoved := removeFileFromPath_found argument.read files globCount 0 globCount i
      (Nat.zero_le i) (by omega) hbefore hpath
    rw [hremoved]
    refine ⟨by dsimp only; omega, ?_⟩
    dsimp only
    rw [shiftEntries_entries hi, ← filter_ne_eq_eraseIdx distinct hentry, hpath]
  · intro hmem
    apply removeFileFromPath_absent
    intro i _ hi heq
    have hentry : files i ∈ files.entries globCount :=
      Block.mem_entries.mpr ⟨i, by omega, rfl⟩
    exact hmem (heq ▸ List.mem_map_of_mem hentry)

/-- Three entries, of which the last is removed through a pointer to it. -/
def threeFiles : Block := fun i => ⟨slash :: List.replicate i 97, i⟩

theorem last_removed :
    let result := removeFileFromPath (PathArgument.entry 2).read threeFiles 3 0 3
    result.1.entries result.2 = (threeFiles.entries 3).take 2 := by
  have hremoved := (removeFileFromPath_others (.entry 2) threeFiles 3 (by decide)).1 (by decide)
  refine hremoved.2.trans ?_
  decide

end AdvancedCProjects.Bibak
