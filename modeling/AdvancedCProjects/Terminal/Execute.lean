import AdvancedCProjects.Terminal.Parse
import AdvancedCProjects.Terminal.Pipes

/-!
# What the children execute (terminal.c:171-253)

Behind the pipes a child opens the files of its redirections and its log file. When
`open` or `fopen` fails it exits and the others go on.
-/

namespace AdvancedCProjects.Terminal
open Base

/-- The files that `open` and `fopen` find or make; `none` is a failure. -/
structure Files (F : Type) where
  input : Bytes → Option F
  output : Bytes → Option F
  log : ℕ → Option F

section Program
variable {F : Type} (files : Files F) (limit : ℕ)

/-- `open`, `dup2` and `close`, when there is a file to open. -/
def redirect (target : ℕ) (find : Bytes → Option F) (file : Option Bytes)
    (table : Descriptors F) : Option (Descriptors F) :=
  match file with
  | none => some table
  | some name => (find name).bind fun f => (table.openFile limit f).map fun opened =>
      (opened.2.dup2 opened.1 target).close opened.1

def writeLog (i : ℕ) (table : Descriptors F) : Option (Descriptors F) :=
  (files.log i).bind fun f => (table.openFile limit f).map fun opened =>
    opened.2.close opened.1

/-- The table with which child `i` calls `execvp`; `none` when it exits before. -/
def execTable (start : ℕ → Option F) (pipefds : ℕ → ℕ × ℕ) (execs : List Exec) (i : ℕ) :
    Option (Descriptors F) :=
  (execs[i]?).bind fun exec =>
    (redirect limit 0 files.input exec.inputFile
      (childTable start pipefds execs.length i)).bind fun table =>
    (redirect limit 1 files.output exec.outputFile table).bind fun table =>
    writeLog files limit i table

/-- What stands behind a descriptor that may have been redirected. -/
def redirected (find : Bytes → Option F) (file : Option Bytes) (otherwise : Option (OpenFile F)) :
    Option (OpenFile F) :=
  match file with
  | none => otherwise
  | some name => (find name).map .other

/-- The tables while the children execute. -/
def executing (start : ℕ → Option F) (pipefds : ℕ → ℕ × ℕ) (execs : List Exec) :
    Process → Descriptors F
  | .parent => parentTable start pipefds execs.length
  | .child i => (execTable files limit start pipefds execs i).getD fun _ => none

/-- Command `i` reads from the pipe before it. -/
def ReadsPipe (execs : List Exec) (i : ℕ) : Prop :=
  0 < i ∧ ∃ exec, execs[i]? = some exec ∧ exec.inputFile = none

def WritesPipe (execs : List Exec) (i : ℕ) : Prop :=
  i + 1 < execs.length ∧ ∃ exec, execs[i]? = some exec ∧ exec.outputFile = none

/-- What each command reads and writes, and when it sees the end of its input. -/
structure Executed (start : ℕ → Option F) (pipefds : ℕ → ℕ × ℕ) (execs : List Exec)
    (ended : Set ℕ) : Prop where
  tables : ∀ i exec table, execs[i]? = some exec →
    execTable files limit start pipefds execs i = some table → ∀ fd, table fd =
      if fd = 0 then redirected files.input exec.inputFile
        (if i = 0 then inherited start 0 else some (.readEnd (i - 1)))
      else if fd = 1 then redirected files.output exec.outputFile
        (if i + 1 = execs.length then inherited start 1 else some (.writeEnd i))
      else inherited start fd
  reader : ∀ k, ∀ process ∈ alive execs.length ended,
    (executing files limit start pipefds execs process).Holds (.readEnd k) ↔
      process = .child (k + 1) ∧ ReadsPipe execs (k + 1)
  atEof : ∀ k, Descriptors.AtEof (executing files limit start pipefds execs)
    (alive execs.length ended) k ↔ k ∈ ended ∨ ¬ WritesPipe execs k
  -- The children end one after the other, if each ends at the end of its input.
  ends : (∀ i < execs.length, ¬ ReadsPipe execs i → i ∈ ended) →
    (∀ k, ReadsPipe execs (k + 1) → Descriptors.AtEof
      (executing files limit start pipefds execs) (alive execs.length ended) k →
      k + 1 ∈ ended) →
    ∀ i < execs.length, i ∈ ended

end Program

section Tables
variable {F : Type} {files : Files F} {limit : ℕ} {find : Bytes → Option F} {file : Option Bytes}
  {table after : Descriptors F} {target i : ℕ}

/-- A redirection changes one descriptor. -/
theorem redirect_apply (htarget : table target ≠ none)
    (h : redirect limit target find file table = some after) (x : ℕ) :
    after x = if x = target then redirected find file (table target) else table x := by
  cases file with
  | none =>
    obtain rfl := Option.some.inj h
    split
    · next heq => rw [heq, redirected]
    · rfl
  | some name =>
    obtain ⟨f, hf, hopen⟩ := Option.bind_eq_some_iff.mp h
    obtain ⟨⟨fd, opened⟩, hopened, rfl⟩ := Option.map_eq_some_iff.mp hopen
    obtain ⟨hfree, happly⟩ := Descriptors.openFile_spec hopened
    have hne : target ≠ fd := fun heq => htarget (heq ▸ hfree)
    have hfd : opened fd = some (.other f) := by rw [happly, if_pos rfl]
    rw [Descriptors.close_apply, Descriptors.dup2_apply hfd, happly]
    simp only [redirected, hf, Option.map_some]
    by_cases hx : x = fd
    · rw [if_pos hx, if_neg (by rw [hx]; exact hne.symm), hx, hfree]
    · rw [if_neg hx, if_neg hx]

theorem writeLog_apply (h : writeLog files limit i table = some after) : after = table := by
  obtain ⟨f, -, hopen⟩ := Option.bind_eq_some_iff.mp h
  obtain ⟨⟨fd, opened⟩, hopened, rfl⟩ := Option.map_eq_some_iff.mp hopen
  obtain ⟨hfree, happly⟩ := Descriptors.openFile_spec hopened
  funext x
  dsimp only
  rw [Descriptors.close_apply, happly]
  split
  · next hx => rw [hx, hfree]
  · rfl

end Tables

section Children
variable {F : Type} {files : Files F} {limit : ℕ} {start : ℕ → Option F} {pipefds : ℕ → ℕ × ℕ}
  {execs : List Exec} {exec : Exec} {i : ℕ} {table : Descriptors F}

theorem execTable_apply (hopen : ∀ fd < 3, start fd ≠ none)
    (hfresh : FreshPipes start pipefds execs.length) (hexec : execs[i]? = some exec)
    (h : execTable files limit start pipefds execs i = some table) (fd : ℕ) :
    table fd =
      if fd = 0 then redirected files.input exec.inputFile
        (if i = 0 then inherited start 0 else some (.readEnd (i - 1)))
      else if fd = 1 then redirected files.output exec.outputFile
        (if i + 1 = execs.length then inherited start 1 else some (.writeEnd i))
      else inherited start fd := by
  have hi : i < execs.length := (List.getElem?_eq_some_iff.mp hexec).1
  have hchild := childTable_apply hopen hfresh hi
  have hinherited (fd : ℕ) (hfd : fd < 3) : inherited start fd ≠ none := by
    simpa [inherited] using hopen fd hfd
  rw [execTable, hexec, Option.bind_some] at h
  obtain ⟨t₁, hinput, h⟩ := Option.bind_eq_some_iff.mp h
  obtain ⟨t₂, houtput, hlog⟩ := Option.bind_eq_some_iff.mp h
  obtain rfl := writeLog_apply hlog
  have hzero : childTable start pipefds execs.length i 0 =
      if i = 0 then inherited start 0 else some (.readEnd (i - 1)) := by
    rw [hchild]
    by_cases hfirst : i = 0
    · rw [if_neg (by omega), if_neg (by omega), if_pos hfirst]
    · rw [if_pos ⟨by omega, rfl⟩, if_neg hfirst]
  have hone : childTable start pipefds execs.length i 1 =
      if i + 1 = execs.length then inherited start 1 else some (.writeEnd i) := by
    rw [hchild, if_neg (by omega)]
    by_cases hlast : i + 1 = execs.length
    · rw [if_neg (by omega), if_pos hlast]
    · rw [if_pos ⟨by omega, rfl⟩, if_neg hlast]
  have hzero' : childTable start pipefds execs.length i 0 ≠ none := by
    rw [hzero]
    split
    · exact hinherited 0 (by decide)
    · simp
  have hone' : childTable start pipefds execs.length i 1 ≠ none := by
    rw [hone]
    split
    · exact hinherited 1 (by decide)
    · simp
  have hfirst := redirect_apply hzero' hinput
  have hone₁ : t₁ 1 = childTable start pipefds execs.length i 1 := by
    rw [hfirst, if_neg (by decide)]
  rw [redirect_apply (by rw [hone₁]; exact hone') houtput, hone₁, hone]
  by_cases hfd : fd = 1
  · rw [if_pos hfd, if_neg (show ¬ fd = 0 by omega), if_pos hfd]
  · rw [if_neg hfd, hfirst, hzero]
    by_cases hfd' : fd = 0
    · rw [if_pos hfd', if_pos hfd']
    · rw [if_neg hfd', if_neg hfd', if_neg hfd, hchild, if_neg (by omega), if_neg (by omega)]

theorem redirected_pipe {find : Bytes → Option F} {file : Option Bytes}
    {otherwise : Option (OpenFile F)} {pipe : OpenFile F} (hpipe : ∀ f, pipe ≠ .other f) :
    redirected find file otherwise = some pipe ↔ file = none ∧ otherwise = some pipe := by
  cases file with
  | none => simp [redirected]
  | some name =>
    simp only [redirected, reduceCtorEq, false_and, iff_false]
    intro heq
    obtain ⟨f, -, hf⟩ := Option.map_eq_some_iff.mp heq
    exact hpipe f hf.symm

theorem inherited_ne {pipe : OpenFile F} (hpipe : ∀ f, pipe ≠ .other f) (fd : ℕ) :
    inherited start fd ≠ some pipe := by
  intro heq
  obtain ⟨f, hf⟩ := inherited_other heq
  exact hpipe f hf

section Pipes
variable (hopen : ∀ fd < 3, start fd ≠ none) (hfresh : FreshPipes start pipefds execs.length)
  {ended : Set ℕ}
  (hran : ∀ i < execs.length, i ∉ ended → execTable files limit start pipefds execs i ≠ none)
include hopen hfresh hran

/-- A process holds an end of a pipe only where the pipe was meant for it. -/
theorem executing_holds {process : Process} (hp : process ∈ alive execs.length ended)
    {pipe : OpenFile F} (hpipe : ∀ f, pipe ≠ .other f) :
    (executing files limit start pipefds execs process).Holds pipe ↔ ∃ i, process = .child i ∧
      (ReadsPipe execs i ∧ pipe = .readEnd (i - 1) ∨ WritesPipe execs i ∧ pipe = .writeEnd i) := by
  rcases hp with rfl | ⟨i, hi, halive, rfl⟩
  · refine iff_of_false (fun ⟨fd, hfd⟩ => ?_) (by simp)
    rw [executing, parentTable_eq hfresh] at hfd
    exact inherited_ne hpipe fd hfd
  · obtain ⟨table, htable⟩ := Option.ne_none_iff_exists'.mp (hran i hi halive)
    obtain ⟨exec, hexec⟩ : ∃ exec, execs[i]? = some exec := ⟨_, List.getElem?_eq_getElem hi⟩
    have happly := execTable_apply hopen hfresh hexec htable
    rw [executing, htable, Option.getD_some]
    constructor
    · intro ⟨fd, hfd⟩
      refine ⟨i, rfl, ?_⟩
      rw [happly] at hfd
      split at hfd
      · obtain ⟨hnone, hread⟩ := (redirected_pipe hpipe).mp hfd
        split at hread
        · exact absurd hread (inherited_ne hpipe 0)
        · next hfirst =>
          exact .inl ⟨⟨by omega, exec, hexec, hnone⟩, (Option.some.inj hread).symm⟩
      · split at hfd
        · obtain ⟨hnone, hwrite⟩ := (redirected_pipe hpipe).mp hfd
          split at hwrite
          · exact absurd hwrite (inherited_ne hpipe 1)
          · next hlast =>
            exact .inr ⟨⟨by omega, exec, hexec, hnone⟩, (Option.some.inj hwrite).symm⟩
        · exact absurd hfd (inherited_ne hpipe fd)
    · rintro ⟨j, hj, ⟨⟨hpos, exec', hexec', hnone⟩, rfl⟩ | ⟨⟨hlast, exec', hexec', hnone⟩, rfl⟩⟩
      all_goals
        obtain rfl := Process.child.inj hj
        obtain rfl := Option.some.inj (hexec.symm.trans hexec')
      · refine ⟨0, ?_⟩
        rw [happly, if_pos rfl, hnone, redirected, if_neg (by omega)]
      · refine ⟨1, ?_⟩
        rw [happly, if_neg (by decide), if_pos rfl, hnone, redirected, if_neg (by omega)]

theorem executing_atEof (k : ℕ) : Descriptors.AtEof (executing files limit start pipefds execs)
    (alive execs.length ended) k ↔ k ∈ ended ∨ ¬ WritesPipe execs k := by
  constructor
  · intro heof
    by_contra hnot
    obtain ⟨halive, hwrites⟩ := not_or.mp hnot
    have hwrites := not_not.mp hwrites
    have hp : Process.child k ∈ alive execs.length ended :=
      .inr ⟨k, by have := hwrites.1; omega, halive, rfl⟩
    exact heof _ hp ((executing_holds hopen hfresh hran hp (by simp)).mpr
      ⟨k, rfl, .inr ⟨hwrites, rfl⟩⟩)
  · intro hor process hp hholds
    obtain ⟨i, rfl, hends⟩ := (executing_holds hopen hfresh hran hp (by simp)).mp hholds
    obtain ⟨hwrites, heq⟩ := hends.resolve_left fun h => by simp at h
    obtain rfl := OpenFile.writeEnd.inj heq
    rcases hor with hended | hnot
    · obtain h | ⟨j, -, halive, heq⟩ := hp
      · contradiction
      · obtain rfl := Process.child.inj heq
        exact halive hended
    · exact hnot hwrites

end Pipes

end Children

/-- Every command that gets to `execvp` reads its file or the pipe before it and writes its file
or the pipe behind it, and has nothing else open than what the program started with; a pipe is
at its end exactly if its writer has ended or writes to a file. -/
theorem pipeline_executed {F : Type} (files : Files F) (limit : ℕ) (start : ℕ → Option F)
    (pipefds : ℕ → ℕ × ℕ) (execs : List Exec) (ended : Set ℕ)
    (hopen : ∀ fd < 3, start fd ≠ none) (hfresh : FreshPipes start pipefds execs.length)
    (hran : ∀ i < execs.length, i ∉ ended → execTable files limit start pipefds execs i ≠ none) :
    Executed files limit start pipefds execs ended where
  tables i exec table hexec h := execTable_apply hopen hfresh hexec h
  reader k process hp := by
    rw [executing_holds hopen hfresh hran hp (by simp)]
    constructor
    · rintro ⟨i, rfl, ⟨hreads, heq⟩ | ⟨-, heq⟩⟩
      · obtain rfl : k + 1 = i := by
          have hpos := hreads.1
          rw [OpenFile.readEnd.inj heq]
          omega
        exact ⟨rfl, hreads⟩
      · contradiction
    · intro ⟨hprocess, hreads⟩
      exact ⟨k + 1, hprocess, .inl ⟨hreads, rfl⟩⟩
  atEof := executing_atEof hopen hfresh hran
  ends hown hnext i hi := by
    induction i with
    | zero => exact hown 0 hi fun h => absurd h.1 (lt_irrefl 0)
    | succ k ih =>
      by_cases hreads : ReadsPipe execs (k + 1)
      · exact hnext k hreads ((executing_atEof hopen hfresh hran k).mpr (.inl (ih (by omega))))
      · exact hown (k + 1) hi hreads

/-- `a < b | c > d`; a log file gets descriptor 3. -/
theorem twoCommands_executed : Executed
    (⟨some, some, fun _ => some []⟩ : Files Bytes) 10 (fun fd => if fd < 3 then some [] else none)
    (fun _ => (3, 4)) [⟨[[97]], some [98], none⟩, ⟨[[99]], none, some [100]⟩] ∅ := by
  refine pipeline_executed _ _ _ _ _ _ (by decide) (by unfold FreshPipes; decide) fun i hi _ => ?_
  obtain rfl | rfl : i = 0 ∨ i = 1 := by
    rw [List.length_cons, List.length_cons, List.length_nil] at hi
    omega
  all_goals decide

end AdvancedCProjects.Terminal
