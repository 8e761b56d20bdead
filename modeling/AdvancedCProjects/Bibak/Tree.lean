import AdvancedCProjects.Base.Bytes
import Mathlib.Logic.Function.Basic
import Mathlib.Data.List.Nodup

/-!
# Watched directory trees (BibakBOXClient.c)

A directory stream lists its entries in the order `readdir` returns them, `.`
and `..` left out. `saveFileModificationTimes` walks it depth first and records
path and modification time of every file, up to `MAX_FILES`.
-/

namespace AdvancedCProjects.Bibak
open Base

abbrev Path := Bytes
abbrev Name := Bytes

def maxFiles : ℕ := 100

def maxPathLength : ℕ := 1024

def slash : Byte := 47
def backslash : Byte := 92

def joinPath (directory : Path) (name : Name) : Path :=
  (directory ++ slash :: name).take (maxPathLength - 1)

def watchedDir : Path := utf8 "w"

inductive Listing where
  | nil
  | file (name : Name) (mtime : ℤ) (content : Bytes) (rest : Listing)
  | dir (name : Name) (mtime : ℤ) (sub rest : Listing)
  deriving DecidableEq

structure FileModificationInfo where
  filepath : Path
  lastModifiedTime : ℤ
  deriving DecidableEq

/-- What `stat` and `fopen` find at a path. -/
structure Inode where
  path : Path
  isDir : Bool
  mtime : ℤ
  content : Bytes
  deriving DecidableEq

namespace Listing

def names : Listing → List Name
  | nil => []
  | file n _ _ rest => n :: rest.names
  | dir n _ _ rest => n :: rest.names

/-- A component of a path: not empty, no separator, no terminator. -/
def NameOk (n : Name) : Prop := n ≠ [] ∧ slash ∉ n ∧ (0 : Byte) ∉ n

instance : DecidablePred NameOk := fun _ => inferInstanceAs (Decidable (_ ∧ _))

/-- The names of every directory are path components and distinct. -/
def NamesOk : Listing → Prop
  | nil => True
  | file n _ _ rest => NameOk n ∧ n ∉ rest.names ∧ rest.NamesOk
  | dir n _ sub rest => NameOk n ∧ n ∉ rest.names ∧ sub.NamesOk ∧ rest.NamesOk

def decNamesOk : (l : Listing) → Decidable l.NamesOk
  | nil => inferInstanceAs (Decidable True)
  | file _ _ _ rest =>
    have := decNamesOk rest
    inferInstanceAs (Decidable (_ ∧ _ ∧ _))
  | dir _ _ sub rest =>
    have := decNamesOk sub
    have := decNamesOk rest
    inferInstanceAs (Decidable (_ ∧ _ ∧ _ ∧ _))

instance : DecidablePred NamesOk := decNamesOk

def nodes (directory : Path) : Listing → List Inode
  | nil => []
  | file n t c rest => ⟨directory ++ slash :: n, false, t, c⟩ :: rest.nodes directory
  | dir n t sub rest => ⟨directory ++ slash :: n, true, t, []⟩ ::
      (sub.nodes (directory ++ slash :: n) ++ rest.nodes directory)

def files (directory : Path) (l : Listing) : List Inode :=
  (l.nodes directory).filter fun f => !f.isDir

@[simp] theorem files_nil (d : Path) : (nil : Listing).files d = [] := rfl

@[simp] theorem files_file (d : Path) (n : Name) (t : ℤ) (c : Bytes) (rest : Listing) :
    (file n t c rest).files d = ⟨d ++ slash :: n, false, t, c⟩ :: rest.files d := rfl

@[simp] theorem files_dir (d : Path) (n : Name) (t : ℤ) (sub rest : Listing) :
    (dir n t sub rest).files d = sub.files (d ++ slash :: n) ++ rest.files d := by
  simp [files, nodes]

/-- Every path below `d` is `d`, a separator, a name of the listing, and then
nothing or a separator again. -/
theorem nodes_under (l : Listing) (d : Path) (f : Inode) (hf : f ∈ l.nodes d) :
    ∃ n ∈ l.names, ∃ r, f.path = d ++ slash :: (n ++ r) ∧ (r = [] ∨ ∃ r', r = slash :: r') := by
  induction l generalizing d with
  | nil => simp [nodes] at hf
  | file n t c rest ih =>
    rcases List.mem_cons.mp hf with rfl | hf
    · exact ⟨n, List.mem_cons_self, [], by simp, .inl rfl⟩
    · obtain ⟨m, hm, r, hr⟩ := ih d hf
      exact ⟨m, List.mem_cons_of_mem _ hm, r, hr⟩
  | dir n t sub rest ihs ihr =>
    rcases List.mem_cons.mp hf with rfl | hf
    · exact ⟨n, List.mem_cons_self, [], by simp, .inl rfl⟩
    rcases List.mem_append.mp hf with hf | hf
    · obtain ⟨m, _, r, hp, _⟩ := ihs _ hf
      exact ⟨n, List.mem_cons_self, slash :: (m ++ r), by simp [hp], .inr ⟨_, rfl⟩⟩
    · obtain ⟨m, hm, r, hr⟩ := ihr d hf
      exact ⟨m, List.mem_cons_of_mem _ hm, r, hr⟩

theorem nameOk_of_mem (l : Listing) (hl : l.NamesOk) (n : Name) (hn : n ∈ l.names) : NameOk n := by
  induction l with
  | nil => simp [names] at hn
  | file m t c rest ih =>
    rcases List.mem_cons.mp hn with rfl | hn
    · exact hl.1
    · exact ih hl.2.2 hn
  | dir m t sub rest _ ih =>
    rcases List.mem_cons.mp hn with rfl | hn
    · exact hl.1
    · exact ih hl.2.2.2 hn

theorem component_eq {n m r r' : Bytes} (hn : slash ∉ n) (hm : slash ∉ m)
    (hr : r = [] ∨ ∃ q, r = slash :: q) (hr' : r' = [] ∨ ∃ q, r' = slash :: q)
    (h : n ++ r = m ++ r') : n = m := by
  have key : ∀ n r : Bytes, slash ∉ n → (r = [] ∨ ∃ q, r = slash :: q) →
      (n ++ r).takeWhile (· ≠ slash) = n := by
    intro n r hn hr
    have hall : ∀ b ∈ n, decide (b ≠ slash) = true :=
      fun b hb => decide_eq_true fun he => hn (he ▸ hb)
    rcases hr with rfl | ⟨q, rfl⟩
    · rw [List.append_nil, List.takeWhile_eq_self_iff.mpr hall]
    · rw [List.takeWhile_append_of_pos hall]
      simp
  rw [← key n r hn hr, h, key m r' hm hr']

theorem nodes_nodup (l : Listing) (hl : l.NamesOk) (d : Path) :
    ((l.nodes d).map Inode.path).Nodup := by
  -- a node of `rest` never lies at or below the first name
  have apart : ∀ (rest : Listing) (d : Path) (n : Name), rest.NamesOk → slash ∉ n →
      n ∉ rest.names → ∀ r, (r = [] ∨ ∃ q, r = slash :: q) →
      d ++ slash :: (n ++ r) ∉ (rest.nodes d).map Inode.path := by
    intro rest d n hrest hn hnot r hr hmem
    obtain ⟨f, hf, hp⟩ := List.mem_map.mp hmem
    obtain ⟨m, hm, r', hp', hr'⟩ := nodes_under rest d f hf
    rw [hp'] at hp
    have htail : m ++ r' = n ++ r := by simpa using hp
    have hmn := component_eq (nameOk_of_mem rest hrest m hm).2.1 hn hr' hr htail
    exact hnot (hmn ▸ hm)
  induction l generalizing d with
  | nil => exact List.nodup_nil
  | file n t c rest ih =>
    refine List.nodup_cons.mpr ⟨?_, ih hl.2.2 d⟩
    simpa using apart rest d n hl.2.2 hl.1.2.1 hl.2.1 [] (.inl rfl)
  | dir n t sub rest ihs ihr =>
    obtain ⟨hn, hnot, hsub, hrest⟩ := hl
    simp only [nodes, List.map_cons, List.map_append]
    refine List.nodup_cons.mpr ⟨?_, List.Nodup.append (ihs hsub _) (ihr hrest d) ?_⟩
    · intro hmem
      rcases List.mem_append.mp hmem with hmem | hmem
      · obtain ⟨f, hf, hp⟩ := List.mem_map.mp hmem
        obtain ⟨m, _, r, hp', _⟩ := nodes_under sub _ f hf
        rw [hp'] at hp
        simp at hp
      · exact apart rest d n hrest hn.2.1 hnot [] (.inl rfl) (by simpa using hmem)
    · intro p hp hq
      obtain ⟨f, hf, rfl⟩ := List.mem_map.mp hp
      obtain ⟨m, _, r, hp', _⟩ := nodes_under sub _ f hf
      refine apart rest d n hrest hn.2.1 hnot (slash :: (m ++ r)) (.inr ⟨_, rfl⟩) ?_
      rw [hp'] at hq
      simpa using hq

def stat (directory : Path) (l : Listing) (path : Path) : Option Inode :=
  (l.nodes directory).find? fun f => f.path = path

end Listing
end AdvancedCProjects.Bibak
