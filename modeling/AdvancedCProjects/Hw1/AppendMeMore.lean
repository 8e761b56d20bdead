import AdvancedCProjects.Base.Bytes
import AdvancedCProjects.Base.File
import AdvancedCProjects.Base.Lists
import AdvancedCProjects.Base.Machine

/-!
# Runs that append to one file (appendMeMore.c:7-48)

A run of `write_bytes_to_file` is its system calls one after the other; the
descriptor it opens has an offset of its own. Runs on the same file may take
turns at any call.
-/

namespace AdvancedCProjects.Hw1
open Base

/-- The arguments of `write_bytes_to_file`. -/
structure Run where
  numBytes : ℤ
  thirdArg : Bool
  deriving DecidableEq

/-- The call that a run makes next. -/
inductive WriterPc where
  | opens
  | seeks (i : ℕ)
  | writes (i : ℕ)
  | closes
  | returned (status : ℤ)
  deriving DecidableEq

structure Writer where
  run : Run
  pc : WriterPc
  offset : ℕ
  deriving DecidableEq

def Run.start (run : Run) : Writer := ⟨run, .opens, 0⟩

/-- Round `i` of the loop, if there is one. -/
def Run.round (run : Run) (i : ℕ) : WriterPc :=
  if i < run.numBytes then
    if run.thirdArg then .seeks i else .writes i
  else .closes

def byte : Byte := 97

namespace Writer

/-- Where `write` puts the byte: with `O_APPEND` it moves to the end first. -/
def position (w : Writer) (file : Bytes) : ℕ :=
  if w.run.thirdArg then w.offset else file.length

/-- `write_bytes_to_file` up to the end of its next call, which succeeds or not. -/
def call (w : Writer) (ok : Bool) (file : Bytes) : Option (Writer × Bytes) :=
  match w.pc with
  | .returned _ => none
  | .opens =>
    if ok then some ({ w with pc := w.run.round 0, offset := 0 }, file)
    else some ({ w with pc := .returned 1 }, file)
  | .seeks i =>
    if ok then some ({ w with pc := .writes i, offset := file.length }, file)
    else some ({ w with pc := .returned 1 }, file)
  | .writes i =>
    if ok then some ({ w with pc := w.run.round (i + 1), offset := w.position file + 1 },
      writeAt file (w.position file) [byte])
    else some ({ w with pc := .returned 1 }, file)
  | .closes =>
    if ok then some ({ w with pc := .returned 0 }, file)
    else some ({ w with pc := .returned 1 }, file)

/-- The bytes written so far by a run no call of which has failed. -/
def written (w : Writer) : ℕ :=
  match w.pc with
  | .opens => 0
  | .seeks i => i
  | .writes i => i
  | .closes => w.run.numBytes.toNat
  | .returned _ => w.run.numBytes.toNat

end Writer

/-! ### Any number of runs -/

structure Appends where
  writers : List Writer
  file : Bytes

/-- The runs take turns, and no call fails. -/
def appends (runs : List Run) (first : Bytes) : Machine Appends ℕ where
  start s := s = ⟨runs.map Run.start, first⟩
  next s j := s.writers[j]?.bind fun w =>
    (w.call true s.file).map fun r => ⟨s.writers.set j r.1, r.2⟩

/-- The positions that the runs have written to, in order. -/
def recordPosition (s : Appends) (j : ℕ) (positions : List ℕ) : List ℕ :=
  match s.writers[j]? with
  | some ⟨run, .writes i, offset⟩ => positions ++ [Writer.position ⟨run, .writes i, offset⟩ s.file]
  | _ => positions

def appendsLog (runs : List Run) (first : Bytes) : Machine (Appends × List ℕ) ℕ :=
  (appends runs first).recorded (fun _ => []) recordPosition

/-- What a run that has written `i` bytes knows of the file, which began with `start` bytes. -/
structure Writer.Grown (start length : ℕ) (w : Writer) : Prop where
  inLoop : ∀ i, w.pc = .seeks i ∨ w.pc = .writes i → i < w.run.numBytes
  written : start + w.written ≤ length
  offset : ∀ i, w.pc = .writes i → w.run.thirdArg = true → start + i ≤ w.offset ∧ w.offset ≤ length

section Calls
variable {w w' : Writer} {file file' first : Bytes} {start length i : ℕ} {run : Run} {ok : Bool}

theorem Run.round_written (run : Run) (h : i ≤ run.numBytes.toNat) (offset : ℕ) :
    Writer.written ⟨run, run.round i, offset⟩ = i := by
  unfold Run.round
  by_cases hi : (i : ℤ) < run.numBytes
  · rw [if_pos hi]
    cases run.thirdArg <;> rfl
  · have heq : run.numBytes.toNat = i := by omega
    rw [if_neg hi]
    exact heq

theorem Run.round_inLoop {k : ℕ} (h : run.round i = .seeks k ∨ run.round i = .writes k) :
    k < run.numBytes := by
  unfold Run.round at h
  by_cases hi : (i : ℤ) < run.numBytes
  · rw [if_pos hi] at h
    cases hthird : run.thirdArg <;> simp [hthird] at h <;> exact h ▸ hi
  · simp [hi] at h

theorem Run.round_writes {k : ℕ} (h : run.round i = .writes k) : run.thirdArg = false := by
  unfold Run.round at h
  by_cases hi : (i : ℤ) < run.numBytes
  · rw [if_pos hi] at h
    cases hthird : run.thirdArg
    · rfl
    · simp [hthird] at h
  · simp [hi] at h

theorem Run.start_grown (run : Run) (length : ℕ) : run.start.Grown length length where
  inLoop i hi := by rcases hi with hi | hi <;> cases hi
  written := le_rfl
  offset i hi := by cases hi

theorem Writer.Grown.mono (h : w.Grown start length) {length' : ℕ} (hle : length ≤ length') :
    w.Grown start length' where
  inLoop := h.inLoop
  written := h.written.trans hle
  offset i hpc hthird := ⟨(h.offset i hpc hthird).1, (h.offset i hpc hthird).2.trans hle⟩

theorem Writer.Grown.position (h : w.Grown start file.length) (hpc : w.pc = .writes i) :
    start + i ≤ w.position file ∧ w.position file ≤ file.length := by
  unfold Writer.position
  by_cases hthird : w.run.thirdArg = true
  · rw [if_pos hthird]
    exact h.offset i hpc hthird
  · have hwritten := h.written
    rw [Writer.written, hpc] at hwritten
    rw [if_neg hthird]
    exact ⟨hwritten, le_rfl⟩

theorem Writer.call_run (hcall : w.call ok file = some (w', file')) : w'.run = w.run := by
  obtain ⟨run, pc, offset⟩ := w
  cases ok <;> cases pc <;> cases hcall <;> rfl

/-- A call that succeeds either leaves the file alone, or is the write of one byte. -/
theorem Writer.call_cases (h : w.Grown start file.length)
    (hcall : w.call true file = some (w', file')) : w'.Grown start file'.length ∧
    ((w'.written = w.written ∧ file' = file ∧ ∀ i, w.pc ≠ .writes i) ∨
      ∃ i, w.pc = .writes i ∧ w'.written = w.written + 1 ∧
        file' = writeAt file (w.position file) [byte]) := by
  obtain ⟨run, pc, offset⟩ := w
  cases pc with
  | returned status => contradiction
  | opens =>
    cases hcall
    have hzero := Run.round_written run (Nat.zero_le _) 0
    have hwritten := h.written
    refine ⟨⟨fun i hi => Run.round_inLoop hi, ?_, ?_⟩, .inl ⟨hzero, rfl, ?_⟩⟩
    · exact hzero.symm ▸ hwritten
    · intro i hpc hthird
      rw [Run.round_writes hpc] at hthird
      contradiction
    · intro i hpc
      cases hpc
  | seeks i =>
    cases hcall
    have hloop := h.inLoop i (.inl rfl)
    refine ⟨⟨?_, h.written, ?_⟩, .inl ⟨rfl, rfl, ?_⟩⟩
    · intro k hk
      rcases hk with hk | hk <;> cases hk
      exact hloop
    · intro k hk _
      cases hk
      exact ⟨h.written, le_rfl⟩
    · intro k hk
      cases hk
  | writes i =>
    cases hcall
    have hloop := h.inLoop i (.inr rfl)
    have hposition := h.position rfl
    have hnext : i + 1 ≤ run.numBytes.toNat := by
      have hlt : (i : ℤ) < run.numBytes := hloop
      omega
    have hwritten := Run.round_written run hnext (Writer.position ⟨run, .writes i, offset⟩ file + 1)
    refine ⟨⟨fun k hk => Run.round_inLoop hk, ?_, ?_⟩, .inr ⟨i, rfl, hwritten, rfl⟩⟩
    · dsimp only
      rw [hwritten, writeAt_length _ _ _ (List.cons_ne_nil _ _), List.length_singleton]
      omega
    · intro k hpc hthird
      rw [Run.round_writes hpc] at hthird
      contradiction
  | closes =>
    cases hcall
    refine ⟨⟨?_, h.written, ?_⟩, .inl ⟨rfl, rfl, ?_⟩⟩
    · intro i hi
      rcases hi with hi | hi <;> cases hi
    · intro i hi
      cases hi
    · intro i hi
      cases hi

end Calls

/-! ### The length of the file -/

structure Grew (runs : List Run) (first : Bytes) (s : Appends) : Prop where
  runs : s.writers.map (·.run) = runs
  grown : ∀ w ∈ s.writers, w.Grown first.length s.file.length
  kept : s.file.take first.length = first
  total : s.file.length ≤ first.length + (s.writers.map Writer.written).sum

/-- With `O_APPEND` every write is at the end. -/
structure Appended (first : Bytes) (s : Appends × List ℕ) : Prop where
  length : s.1.file.length = first.length + (s.1.writers.map Writer.written).sum
  positions : s.2 = List.range' first.length (s.1.writers.map Writer.written).sum

section Runs
variable {runs : List Run} {first : Bytes} {s t : Appends} {j : ℕ} {positions : List ℕ}

theorem appends_next (hnext : (appends runs first).next s j = some t) :
    ∃ w r, s.writers[j]? = some w ∧ w.call true s.file = some r ∧
      t = ⟨s.writers.set j r.1, r.2⟩ := by
  obtain ⟨w, hw, hcall⟩ := Option.bind_eq_some_iff.mp hnext
  obtain ⟨r, hr, ht⟩ := Option.map_eq_some_iff.mp hcall
  exact ⟨w, r, hw, hr, ht.symm⟩

theorem written_start (runs : List Run) : ((runs.map Run.start).map Writer.written).sum = 0 := by
  induction runs with
  | nil => rfl
  | cons run runs ih =>
    rw [List.map_cons, List.map_cons, List.sum_cons, ih]
    rfl

theorem grew_start : Grew runs first ⟨runs.map Run.start, first⟩ where
  runs := by
    rw [List.map_map]
    exact List.map_id runs
  grown := by
    intro w hw
    obtain ⟨run, _, rfl⟩ := List.mem_map.mp hw
    exact run.start_grown first.length
  kept := List.take_length
  total := Nat.le_add_right _ _

theorem grew_next (h : Grew runs first s) (hnext : (appends runs first).next s j = some t) :
    Grew runs first t := by
  obtain ⟨w, ⟨w', file'⟩, hw, hcall, rfl⟩ := appends_next hnext
  have hgrown := h.grown w (List.mem_of_getElem? hw)
  obtain ⟨hgrown', hcase⟩ := Writer.call_cases hgrown hcall
  have hsum := sum_map_set (f := Writer.written) hw w'
  have hruns : (s.writers.set j w').map (·.run) = runs := by
    obtain ⟨before, after, hwriters, hset⟩ := set_split hw
    rw [← h.runs, hset, hwriters, List.map_append, List.map_append, List.map_cons, List.map_cons,
      Writer.call_run hcall]
  have hfile : s.file.length ≤ file'.length ∧
      file'.length + w.written ≤ s.file.length + w'.written ∧ file'.take first.length = first := by
    rcases hcase with ⟨hwritten, rfl, _⟩ | ⟨i, hpc, hwritten, rfl⟩
    · exact ⟨le_rfl, by omega, h.kept⟩
    · have hposition := hgrown.position hpc
      have hlength := writeAt_length s.file [byte] (w.position s.file) (List.cons_ne_nil _ _)
      rw [List.length_singleton] at hlength
      refine ⟨by omega, by omega, ?_⟩
      rw [take_writeAt _ _ _ (by omega) (by omega), h.kept]
  have htotal := h.total
  refine ⟨hruns, ?_, hfile.2.2, ?_⟩
  · intro v hv
    rcases List.mem_or_eq_of_mem_set hv with hold | rfl
    · exact (h.grown v hold).mono hfile.1
    · exact hgrown'
  · dsimp only
    omega

theorem grew_inductive : (appends runs first).Inductive (fun _ _ => True) (Grew runs first) where
  base _ hs := hs ▸ grew_start
  keep _ _ _ h _ hnext := grew_next h hnext

theorem appended_next (happend : ∀ run ∈ runs, run.thirdArg = false) (hgrew : Grew runs first s)
    (h : Appended first (s, positions)) (hnext : (appends runs first).next s j = some t) :
    Appended first (t, recordPosition s j positions) := by
  obtain ⟨w, ⟨w', file'⟩, hw, hcall, rfl⟩ := appends_next hnext
  have hmem := List.mem_of_getElem? hw
  obtain ⟨-, hcase⟩ := Writer.call_cases (hgrew.grown w hmem) hcall
  have hsum := sum_map_set (f := Writer.written) hw w'
  have hlength := h.length
  have hpositions := h.positions
  dsimp only at hlength hpositions
  rcases hcase with ⟨hwritten, rfl, hother⟩ | ⟨i, hpc, hwritten, rfl⟩
  · have htotal : ((s.writers.set j w').map Writer.written).sum =
        (s.writers.map Writer.written).sum := by omega
    have hrecord : recordPosition s j positions = positions := by
      unfold recordPosition
      rw [hw]
      obtain ⟨run, pc, offset⟩ := w
      cases pc with
      | writes i => exact absurd rfl (hother i)
      | _ => rfl
    refine ⟨htotal ▸ hlength, ?_⟩
    rw [hrecord]
    exact htotal ▸ hpositions
  · have hthird : w.run.thirdArg = false :=
      happend w.run (hgrew.runs ▸ List.mem_map_of_mem hmem)
    have hposition : w.position s.file = s.file.length := by
      rw [Writer.position, hthird, if_neg Bool.false_ne_true]
    have htotal : ((s.writers.set j w').map Writer.written).sum =
        (s.writers.map Writer.written).sum + 1 := by omega
    have hrecord : recordPosition s j positions = positions ++ [s.file.length] := by
      unfold recordPosition
      rw [hw, ← hposition]
      obtain ⟨run, pc, offset⟩ := w
      cases hpc
      rfl
    refine ⟨?_, ?_⟩
    · dsimp only
      rw [htotal, hposition, writeAt_end, List.length_append, List.length_singleton, hlength]
      rfl
    · dsimp only
      rw [htotal, hrecord, hpositions, hlength, List.range'_concat, Nat.one_mul]

theorem appendsLog_grew (h : (appendsLog runs first).Reachable (s, positions)) :
    Grew runs first s := by
  have hinductive : (appendsLog runs first).Inductive (fun _ _ => True)
      fun s => Grew runs first s.1 := by
    refine ⟨fun s hs => ?_, fun s j t hgrew _ hnext => ?_⟩
    · exact grew_inductive.base s.1 hs.1
    · obtain ⟨u, hu, rfl⟩ := Option.map_eq_some_iff.mp hnext
      exact grew_next hgrew hu
  exact hinductive.holds h

theorem appendsLog_appended (happend : ∀ run ∈ runs, run.thirdArg = false)
    (h : (appendsLog runs first).Reachable (s, positions)) : Appended first (s, positions) := by
  have hinductive : (appendsLog runs first).Inductive (fun _ _ => True)
      fun s => Grew runs first s.1 ∧ Appended first s := by
    refine ⟨fun s hs => ?_, fun s j t hold _ hnext => ?_⟩
    · obtain ⟨hstart, hempty⟩ := hs
      refine ⟨grew_inductive.base s.1 hstart, ⟨?_, ?_⟩⟩
      · rw [hstart, written_start, Nat.add_zero]
      · rw [hempty, hstart, written_start]
        rfl
    · obtain ⟨u, hu, rfl⟩ := Option.map_eq_some_iff.mp hnext
      exact ⟨grew_next hold.1 hu, appended_next happend hold.1 hold.2 hu⟩
  exact (hinductive.holds h).2

theorem written_returned (hreturned : ∀ w ∈ s.writers, ∃ status, w.pc = .returned status)
    (hruns : s.writers.map (·.run) = runs) :
    (s.writers.map Writer.written).sum = (runs.map (·.numBytes.toNat)).sum := by
  rw [← hruns, List.map_map]
  congr 1
  refine List.map_congr_left fun w hw => ?_
  obtain ⟨status, hpc⟩ := hreturned w hw
  rw [Writer.written, hpc]
  rfl

end Runs

/-- `O_APPEND` loses nothing; with `lseek` the runs may overwrite each other's bytes. -/
theorem appends_returned (runs : List Run) (first : Bytes) (s : Appends) (positions : List ℕ)
    (reachable : (appendsLog runs first).Reachable (s, positions))
    (returned : ∀ w ∈ s.writers, ∃ status, w.pc = .returned status) :
    let total := (runs.map (·.numBytes.toNat)).sum
    ((∀ run ∈ runs, run.thirdArg = false) →
      s.file.length = first.length + total ∧ s.file.take first.length = first ∧
      positions.Nodup ∧ ∀ position ∈ positions, first.length ≤ position) ∧
    ((∀ run ∈ runs, run.thirdArg = true) →
      (∀ run ∈ runs, first.length + run.numBytes.toNat ≤ s.file.length) ∧
      s.file.length ≤ first.length + total ∧ s.file.take first.length = first) := by
  have hgrew := appendsLog_grew reachable
  have htotal := written_returned returned hgrew.runs
  dsimp only
  refine ⟨fun happend => ?_, fun _ => ⟨fun run hrun => ?_, ?_, hgrew.kept⟩⟩
  · have happended := appendsLog_appended happend reachable
    have hpositions : positions = _ := happended.positions
    refine ⟨htotal ▸ happended.length, hgrew.kept, ?_, ?_⟩
    · rw [hpositions]
      exact List.nodup_range'
    · intro position hmem
      rw [hpositions] at hmem
      exact (List.mem_range'_1.mp hmem).1
  · rw [← hgrew.runs] at hrun
    obtain ⟨w, hw, rfl⟩ := List.mem_map.mp hrun
    obtain ⟨status, hpc⟩ := returned w hw
    have hwritten := (hgrew.grown w hw).written
    rwa [Writer.written, hpc] at hwritten
  · exact htotal ▸ hgrew.total

def seekingRuns : List Run := [⟨2, true⟩, ⟨1, true⟩]

/-- Both runs go to the end before either writes, so one byte is lost. -/
def bothSeek : List ℕ := [0, 0, 1, 1, 0, 1, 0, 0, 0, 1]

def seekingEnd : Appends where
  writers := [⟨⟨2, true⟩, .returned 0, 3⟩, ⟨⟨1, true⟩, .returned 0, 2⟩]
  file := [1, byte, byte]

theorem byte_lost :
    (∀ run ∈ seekingRuns, 1 + run.numBytes.toNat ≤ seekingEnd.file.length) ∧
      seekingEnd.file.length ≤ 1 + (seekingRuns.map (·.numBytes.toNat)).sum := by
  have hstart : (appendsLog seekingRuns [1]).start (⟨seekingRuns.map Run.start, [1]⟩, []) :=
    ⟨rfl, rfl⟩
  have hreachable : (appendsLog seekingRuns [1]).Reachable (seekingEnd, [1, 1, 2]) :=
    Machine.Reachable.run (.start hstart) bothSeek rfl
  have hreturned : ∀ w ∈ seekingEnd.writers, w.pc = .returned 0 := by decide
  have hbounds := (appends_returned seekingRuns [1] seekingEnd [1, 1, 2] hreachable
    fun w hw => ⟨0, hreturned w hw⟩).2 (by decide)
  exact ⟨hbounds.1, hbounds.2.1⟩

end AdvancedCProjects.Hw1
