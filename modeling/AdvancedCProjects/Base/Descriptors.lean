import Mathlib.Data.Set.Basic
import Mathlib.Logic.Function.Basic

/-!
# Descriptor tables

A process holds a table of descriptors. `fork` copies it; what the copies refer
to is shared. A reader of a pipe is at the end of the file when no process holds
the other end.
-/

namespace Base

inductive OpenFile (F : Type) where
  | other (file : F)
  | readEnd (pipe : ℕ)
  | writeEnd (pipe : ℕ)

abbrev Descriptors (F : Type) := ℕ → Option (OpenFile F)

namespace Descriptors
variable {F : Type}

def close (table : Descriptors F) (fd : ℕ) : Descriptors F := Function.update table fd none

/-- `dup2` of a descriptor that is not open changes nothing. -/
def dup2 (table : Descriptors F) (old new : ℕ) : Descriptors F :=
  match table old with
  | none => table
  | some file => Function.update table new (some file)

/-- The lowest descriptor from `fd` on that is not open. -/
def lowestFree (table : Descriptors F) (limit fd : ℕ) : Option ℕ :=
  (List.range' fd (limit - fd)).find? fun x => table x = none

/-- `fcntl` with `F_DUPFD`: another descriptor for the file of `old`, not below `fd`. -/
def dupFrom (table : Descriptors F) (limit old fd : ℕ) : Option (ℕ × Descriptors F) :=
  (table old).bind fun file =>
    (table.lowestFree limit fd).map fun new => (new, Function.update table new (some file))

/-- `open` of a file that is there: the lowest descriptor that is free. -/
def openFile (table : Descriptors F) (limit : ℕ) (file : F) : Option (ℕ × Descriptors F) :=
  (table.lowestFree limit 0).map fun fd => (fd, Function.update table fd (some (.other file)))

/-- `pipe`, the `k`-th of the process, which returns the two descriptors `fds`. -/
def pipe (table : Descriptors F) (k : ℕ) (fds : ℕ × ℕ) : Descriptors F :=
  Function.update (Function.update table fds.1 (some (.readEnd k))) fds.2 (some (.writeEnd k))

def Holds (table : Descriptors F) (file : OpenFile F) : Prop := ∃ fd, table fd = some file

/-- No process that is alive can write to the pipe. -/
def AtEof {P : Type} (tables : P → Descriptors F) (alive : Set P) (k : ℕ) : Prop :=
  ∀ process ∈ alive, ¬ (tables process).Holds (.writeEnd k)

section Calls
variable {table : Descriptors F} {file : OpenFile F} {fds : ℕ × ℕ} {k old new : ℕ}

theorem close_apply (table : Descriptors F) (fd x : ℕ) :
    table.close fd x = if x = fd then none else table x := by
  unfold close
  rw [Function.update_apply]

theorem dup2_apply (h : table old = some file) (x : ℕ) :
    table.dup2 old new x = if x = new then some file else table x := by
  simp only [dup2, h, Function.update_apply]

theorem dup2_self (table : Descriptors F) (fd : ℕ) : table.dup2 fd fd = table := by
  unfold dup2
  split
  · rfl
  · next file hfile => rw [← hfile, Function.update_eq_self]

theorem lowestFree_self {limit fd : ℕ} (hlimit : fd < limit) (hfree : table fd = none) :
    table.lowestFree limit fd = some fd := by
  obtain ⟨n, hn⟩ : ∃ n, limit - fd = n + 1 := ⟨limit - fd - 1, by omega⟩
  rw [lowestFree, hn, List.range'_succ]
  exact List.find?_cons_of_pos (decide_eq_true hfree)

theorem openFile_spec {limit fd : ℕ} {f : F} {table' : Descriptors F}
    (h : table.openFile limit f = some (fd, table')) : table fd = none ∧
      ∀ x, table' x = if x = fd then some (.other f) else table x := by
  obtain ⟨fd', hfree, heq⟩ := Option.map_eq_some_iff.mp h
  obtain ⟨rfl, rfl⟩ := Prod.mk.inj heq
  exact ⟨by simpa using List.find?_some hfree, fun x => Function.update_apply ..⟩

theorem dupFrom_free {limit fd : ℕ} (hold : table old = some file) (hlimit : fd < limit)
    (hfree : table fd = none) : table.dupFrom limit old fd = some (fd, table.dup2 old fd) := by
  rw [dupFrom, hold, Option.bind_some, lowestFree_self hlimit hfree, Option.map_some, dup2, hold]

theorem dupFrom_closed {limit fd : ℕ} (hold : table old = none) :
    table.dupFrom limit old fd = none := by
  rw [dupFrom, hold, Option.bind_none]

theorem pipe_read (h : fds.1 ≠ fds.2) : table.pipe k fds fds.1 = some (.readEnd k) := by
  rw [pipe, Function.update_of_ne h, Function.update_self]

theorem pipe_write : table.pipe k fds fds.2 = some (.writeEnd k) := Function.update_self ..

theorem pipe_other {fd : ℕ} (hread : fd ≠ fds.1) (hwrite : fd ≠ fds.2) :
    table.pipe k fds fd = table fd := by
  rw [pipe, Function.update_of_ne hwrite, Function.update_of_ne hread]

end Calls

theorem closes_foldl (body : Descriptors F → ℕ → Descriptors F) (closes : ℕ → ℕ → Prop)
    (closed : ∀ table j fd, closes j fd → body table j fd = none)
    (kept : ∀ table j fd, ¬ closes j fd → body table j fd = table fd)
    (table : Descriptors F) (n fd : ℕ) :
    ((∃ j < n, closes j fd) → (List.range n).foldl body table fd = none) ∧
      ((∀ j < n, ¬ closes j fd) → (List.range n).foldl body table fd = table fd) := by
  induction n with
  | zero => exact ⟨fun ⟨_, hj, _⟩ => absurd hj (Nat.not_lt_zero _), fun _ => rfl⟩
  | succ n ih =>
    rw [List.range_succ, List.foldl_append, List.foldl_cons, List.foldl_nil]
    by_cases hn : closes n fd
    · refine ⟨fun _ => closed _ n fd hn, fun h => absurd hn (h n (Nat.lt_succ_self n))⟩
    · rw [kept _ n fd hn]
      refine ⟨fun ⟨j, hj, hclose⟩ => ih.1 ⟨j, ?_, hclose⟩, fun h => ih.2 fun j hj => h j ?_⟩
      · have hne : j ≠ n := fun heq => hn (heq ▸ hclose)
        omega
      · omega

end Descriptors
end Base
