import AdvancedCProjects.Base.Descriptors

/-!
# The pipes of a pipeline (terminal.c:110-169, 255-259)

The parent creates a pipe between every two commands, forks the commands and
closes its own ends. A child closes the ends it has no use for and moves the two
others to its standard input and output.
-/

namespace AdvancedCProjects.Terminal
open Base

section Program
variable {F : Type} (start : ℕ → Option F) (pipefds : ℕ → ℕ × ℕ) (number_of_commands : ℕ)

/-- What the parent has open before the pipes; none of it is an end of one. -/
def inherited : Descriptors F := fun fd => (start fd).map .other

/-- The table after the first `m` calls of `pipe`. -/
def createPipes (m : ℕ) : Descriptors F :=
  (List.range m).foldl (fun table i => table.pipe i (pipefds i)) (inherited start)

/-- Every `pipe` returns two descriptors that were not open. -/
def FreshPipes : Prop :=
  ∀ i < number_of_commands - 1,
    createPipes start pipefds i (pipefds i).1 = none ∧
    createPipes start pipefds i (pipefds i).2 = none ∧ (pipefds i).1 ≠ (pipefds i).2

def closeUnused (i : ℕ) (table : Descriptors F) (j : ℕ) : Descriptors F :=
  if j + 1 = i then table.close (pipefds j).2
  else if j = i then table.close (pipefds j).1
  else (table.close (pipefds j).1).close (pipefds j).2

def moveEnds (i : ℕ) (table : Descriptors F) : Descriptors F :=
  if 1 < number_of_commands then
    if i = 0 then (table.dup2 (pipefds 0).2 1).close (pipefds 0).2
    else if i = number_of_commands - 1 then
      (table.dup2 (pipefds (i - 1)).1 0).close (pipefds (i - 1)).1
    else
      (((table.dup2 (pipefds (i - 1)).1 0).dup2 (pipefds i).2 1).close
        (pipefds (i - 1)).1).close (pipefds i).2
  else table

/-- The table of child `i` just before its own redirections. -/
def childTable (i : ℕ) : Descriptors F :=
  moveEnds pipefds number_of_commands i <|
    (List.range (number_of_commands - 1)).foldl (closeUnused pipefds i)
      (createPipes start pipefds (number_of_commands - 1))

def closePipe (table : Descriptors F) (i : ℕ) : Descriptors F :=
  (table.close (pipefds i).1).close (pipefds i).2

def parentTable : Descriptors F :=
  (List.range (number_of_commands - 1)).foldl (closePipe pipefds)
    (createPipes start pipefds (number_of_commands - 1))

inductive Process where
  | parent
  | child (i : ℕ)

def processTable : Process → Descriptors F
  | .parent => parentTable start pipefds number_of_commands
  | .child i => childTable start pipefds number_of_commands i

/-- The processes of the pipeline without the children that have ended. -/
def alive (ended : Set ℕ) : Set Process :=
  {process | process = .parent ∨
    ∃ i < number_of_commands, i ∉ ended ∧ process = .child i}

/-- Child `i` reads from child `i - 1` and writes to child `i + 1`, and no process
holds any other end. -/
structure Wired : Prop where
  stdin : ∀ i < number_of_commands, childTable start pipefds number_of_commands i 0 =
    if i = 0 then inherited start 0 else some (.readEnd (i - 1))
  stdout : ∀ i < number_of_commands, childTable start pipefds number_of_commands i 1 =
    if i = number_of_commands - 1 then inherited start 1 else some (.writeEnd i)
  others : ∀ i < number_of_commands, ∀ fd, 2 ≤ fd →
    childTable start pipefds number_of_commands i fd = inherited start fd
  parent : parentTable start pipefds number_of_commands = inherited start
  writer : ∀ k, k + 1 < number_of_commands → ∀ process ∈ alive number_of_commands ∅,
    (processTable start pipefds number_of_commands process).Holds (.writeEnd k) ↔
      process = .child k
  reader : ∀ k, k + 1 < number_of_commands → ∀ process ∈ alive number_of_commands ∅,
    (processTable start pipefds number_of_commands process).Holds (.readEnd k) ↔
      process = .child (k + 1)
  -- The children end one after the other, if each ends at the end of its input.
  eof : ∀ ended : Set ℕ, 0 ∈ ended →
    (∀ k, k + 1 < number_of_commands →
      Descriptors.AtEof (processTable start pipefds number_of_commands)
        (alive number_of_commands ended) k → k + 1 ∈ ended) →
    ∀ i < number_of_commands, i ∈ ended

end Program

section Pipes
variable {F : Type} {start : ℕ → Option F} {pipefds : ℕ → ℕ × ℕ} {n m i j k fd : ℕ}

theorem inherited_other {file : OpenFile F} (h : inherited start fd = some file) :
    ∃ f, file = .other f := by
  obtain ⟨f, -, rfl⟩ := Option.map_eq_some_iff.mp h
  exact ⟨f, rfl⟩

/-- What the descriptors refer to after `m` pipes. -/
structure Opened (start : ℕ → Option F) (pipefds : ℕ → ℕ × ℕ) (m : ℕ) : Prop where
  read : ∀ j < m, createPipes start pipefds m (pipefds j).1 = some (.readEnd j)
  write : ∀ j < m, createPipes start pipefds m (pipefds j).2 = some (.writeEnd j)
  other : ∀ fd, (∀ j < m, fd ≠ (pipefds j).1 ∧ fd ≠ (pipefds j).2) →
    createPipes start pipefds m fd = inherited start fd
  unused : ∀ j < m, inherited start (pipefds j).1 = none ∧ inherited start (pipefds j).2 = none

theorem createPipes_succ (m : ℕ) : createPipes start pipefds (m + 1) =
    (createPipes start pipefds m).pipe m (pipefds m) := by
  rw [createPipes, List.range_succ, List.foldl_append]
  rfl

theorem createPipes_opened (hfresh : FreshPipes start pipefds n) (hm : m ≤ n - 1) :
    Opened start pipefds m := by
  induction m with
  | zero =>
    refine ⟨?_, ?_, fun _ _ => rfl, ?_⟩
    all_goals
      intro j hj
      exact absurd hj (Nat.not_lt_zero j)
  | succ m ih =>
    have ih := ih (by omega)
    obtain ⟨hread, hwrite, hne⟩ := hfresh m (by omega)
    -- The new descriptors are those of no earlier pipe, since those are open.
    have hopen : ∀ fd file, createPipes start pipefds m fd = some file →
        fd ≠ (pipefds m).1 ∧ fd ≠ (pipefds m).2 := by
      intro fd file hfd
      constructor
      · intro heq
        rw [heq, hread] at hfd
        contradiction
      · intro heq
        rw [heq, hwrite] at hfd
        contradiction
    have hnew : ∀ j < m, ((pipefds j).1 ≠ (pipefds m).1 ∧ (pipefds j).1 ≠ (pipefds m).2) ∧
        ((pipefds j).2 ≠ (pipefds m).1 ∧ (pipefds j).2 ≠ (pipefds m).2) := fun j hj =>
      ⟨hopen _ _ (ih.read j hj), hopen _ _ (ih.write j hj)⟩
    refine ⟨?_, ?_, ?_, ?_⟩
    · intro j hj
      rw [createPipes_succ]
      rcases Nat.lt_succ_iff_lt_or_eq.mp hj with hj | rfl
      · obtain ⟨⟨h₁, h₂⟩, -⟩ := hnew j hj
        rw [Descriptors.pipe_other h₁ h₂, ih.read j hj]
      · exact Descriptors.pipe_read hne
    · intro j hj
      rw [createPipes_succ]
      rcases Nat.lt_succ_iff_lt_or_eq.mp hj with hj | rfl
      · obtain ⟨-, h₁, h₂⟩ := hnew j hj
        rw [Descriptors.pipe_other h₁ h₂, ih.write j hj]
      · exact Descriptors.pipe_write
    · intro fd hfd
      obtain ⟨h₁, h₂⟩ := hfd m (Nat.lt_succ_self m)
      rw [createPipes_succ, Descriptors.pipe_other h₁ h₂]
      exact ih.other fd fun j hj => hfd j (by omega)
    · intro j hj
      rcases Nat.lt_succ_iff_lt_or_eq.mp hj with hj | rfl
      · exact ih.unused j hj
      · rw [ih.other _ fun k hk => ⟨(hnew k hk).1.1.symm, (hnew k hk).2.1.symm⟩] at hread
        rw [ih.other _ fun k hk => ⟨(hnew k hk).1.2.symm, (hnew k hk).2.2.symm⟩] at hwrite
        exact ⟨hread, hwrite⟩

namespace Opened
variable (ho : Opened start pipefds m)
include ho

theorem read_inj (hj : j < m) (hk : k < m) (h : (pipefds j).1 = (pipefds k).1) : j = k := by
  have hread := ho.read j hj
  rw [h, ho.read k hk] at hread
  simpa using hread.symm

theorem write_inj (hj : j < m) (hk : k < m) (h : (pipefds j).2 = (pipefds k).2) : j = k := by
  have hwrite := ho.write j hj
  rw [h, ho.write k hk] at hwrite
  simpa using hwrite.symm

theorem read_ne_write (hj : j < m) (hk : k < m) : (pipefds j).1 ≠ (pipefds k).2 := by
  intro h
  have hread := ho.read j hj
  rw [h, ho.write k hk] at hread
  simp at hread

theorem ne_of_open (hfd : start fd ≠ none) (hj : j < m) :
    (pipefds j).1 ≠ fd ∧ (pipefds j).2 ≠ fd := by
  obtain ⟨hread, hwrite⟩ := ho.unused j hj
  constructor
  · rintro rfl
    exact hfd (Option.map_eq_none_iff.mp hread)
  · rintro rfl
    exact hfd (Option.map_eq_none_iff.mp hwrite)

end Opened

/-- What pass `j` of the close loop of child `i` closes. -/
def Closes (pipefds : ℕ → ℕ × ℕ) (i j fd : ℕ) : Prop :=
  j + 1 ≠ i ∧ fd = (pipefds j).1 ∨ j ≠ i ∧ fd = (pipefds j).2

theorem closeUnused_closes (table : Descriptors F) (h : Closes pipefds i j fd) :
    closeUnused pipefds i table j fd = none := by
  unfold closeUnused
  rcases h with ⟨hi, rfl⟩ | ⟨hi, rfl⟩
  · rw [if_neg hi]
    split <;> simp [Descriptors.close_apply]
  · rw [if_neg hi]
    split <;> simp [Descriptors.close_apply]

theorem closeUnused_keeps (table : Descriptors F) (h : ¬ Closes pipefds i j fd) :
    closeUnused pipefds i table j fd = table fd := by
  unfold Closes at h
  unfold closeUnused
  split
  · rw [Descriptors.close_apply, if_neg]
    omega
  · split
    · rw [Descriptors.close_apply, if_neg]
      omega
    · rw [Descriptors.close_apply, if_neg (by omega), Descriptors.close_apply, if_neg (by omega)]

theorem closed_apply (ho : Opened start pipefds (n - 1)) (hi : i < n) (fd : ℕ) :
    (List.range (n - 1)).foldl (closeUnused pipefds i) (createPipes start pipefds (n - 1)) fd =
      if 0 < i ∧ fd = (pipefds (i - 1)).1 then some (.readEnd (i - 1))
      else if i + 1 < n ∧ fd = (pipefds i).2 then some (.writeEnd i)
      else inherited start fd := by
  have hloop := Descriptors.closes_foldl (closeUnused pipefds i) (Closes pipefds i)
    (fun table _ _ => closeUnused_closes table) (fun table _ _ => closeUnused_keeps table)
    (createPipes start pipefds (n - 1)) (n - 1) fd
  by_cases hclose : ∃ j < n - 1, Closes pipefds i j fd
  · rw [hloop.1 hclose]
    obtain ⟨j, hj, ⟨hne, rfl⟩ | ⟨hne, rfl⟩⟩ := hclose
    · rw [if_neg, if_neg, (ho.unused j hj).1]
      · intro ⟨hlast, heq⟩
        exact ho.read_ne_write hj (by omega) heq
      · intro ⟨hpos, heq⟩
        have := ho.read_inj hj (by omega) heq
        omega
    · rw [if_neg, if_neg, (ho.unused j hj).2]
      · intro ⟨hlast, heq⟩
        exact hne (ho.write_inj hj (by omega) heq)
      · intro ⟨hpos, heq⟩
        exact ho.read_ne_write (by omega) hj heq.symm
  · have hkeep : ∀ j < n - 1, ¬ Closes pipefds i j fd := fun j hj h => hclose ⟨j, hj, h⟩
    rw [hloop.2 hkeep]
    split
    · next hread =>
      rw [hread.2, ho.read _ (by omega)]
    · next hread =>
      split
      · next hwrite =>
        rw [hwrite.2, ho.write _ (by omega)]
      · next hwrite =>
        refine ho.other fd fun j hj => ⟨fun heq => ?_, fun heq => ?_⟩
        · have hne := hkeep j hj
          unfold Closes at hne
          obtain rfl : j = i - 1 := by omega
          exact hread ⟨by omega, heq⟩
        · have hne := hkeep j hj
          unfold Closes at hne
          obtain rfl : j = i := by omega
          exact hwrite ⟨by omega, heq⟩

section Wiring
variable (hopen : ∀ fd < 3, start fd ≠ none) (hfresh : FreshPipes start pipefds n)
include hopen hfresh

theorem childTable_apply (hi : i < n) (fd : ℕ) : childTable start pipefds n i fd =
    if 0 < i ∧ fd = 0 then some (.readEnd (i - 1))
    else if i + 1 < n ∧ fd = 1 then some (.writeEnd i)
    else inherited start fd := by
  have ho := createPipes_opened hfresh le_rfl
  have hclosed := closed_apply ho hi
  have hzero := fun j (hj : j < n - 1) => ho.ne_of_open (hopen 0 (by decide)) hj
  have hone := fun j (hj : j < n - 1) => ho.ne_of_open (hopen 1 (by decide)) hj
  unfold childTable moveEnds
  generalize (List.range (n - 1)).foldl _ _ = table at hclosed
  by_cases hn : 1 < n
  · rw [if_pos hn]
    by_cases hfirst : i = 0
    · subst hfirst
      have hunused := (ho.unused 0 (by omega)).2
      have hne := (hone 0 (by omega)).2
      have hwrite : table (pipefds 0).2 = some (.writeEnd 0) := by
        rw [hclosed, if_neg (by omega), if_pos ⟨by omega, rfl⟩]
      rw [if_pos rfl, Descriptors.close_apply, Descriptors.dup2_apply hwrite, hclosed]
      grind
    · rw [if_neg hfirst]
      have hunused := (ho.unused (i - 1) (by omega)).1
      have hnezero := (hzero (i - 1) (by omega)).1
      have hneone := (hone (i - 1) (by omega)).1
      have hread : table (pipefds (i - 1)).1 = some (.readEnd (i - 1)) := by
        rw [hclosed, if_pos ⟨by omega, rfl⟩]
      by_cases hlast : i = n - 1
      · rw [if_pos hlast, Descriptors.close_apply, Descriptors.dup2_apply hread, hclosed]
        grind
      · have hunused' := (ho.unused i (by omega)).2
        have hnezero' := (hzero i (by omega)).2
        have hneone' := (hone i (by omega)).2
        have hwrite : table.dup2 (pipefds (i - 1)).1 0 (pipefds i).2 = some (.writeEnd i) := by
          rw [Descriptors.dup2_apply hread, if_neg hnezero', hclosed,
            if_neg fun h => ho.read_ne_write (by omega) (by omega) h.2.symm,
            if_pos ⟨by omega, rfl⟩]
        rw [if_neg hlast, Descriptors.close_apply, Descriptors.close_apply,
          Descriptors.dup2_apply hwrite, Descriptors.dup2_apply hread, hclosed]
        grind
  · rw [if_neg hn, hclosed, if_neg (by omega), if_neg (by omega), if_neg (by omega),
      if_neg (by omega)]

omit hopen in
theorem parentTable_eq : parentTable start pipefds n = inherited start := by
  have ho := createPipes_opened hfresh le_rfl
  funext fd
  have hloop := Descriptors.closes_foldl (closePipe pipefds)
    (fun j fd => fd = (pipefds j).1 ∨ fd = (pipefds j).2)
    (fun table j fd h => by rcases h with h | h <;> simp [closePipe, Descriptors.close_apply, h])
    (fun table j fd h => by
      rw [closePipe, Descriptors.close_apply, if_neg (by omega), Descriptors.close_apply,
        if_neg (by omega)])
    (createPipes start pipefds (n - 1)) (n - 1) fd
  unfold parentTable
  by_cases hclose : ∃ j < n - 1, fd = (pipefds j).1 ∨ fd = (pipefds j).2
  · rw [hloop.1 hclose]
    obtain ⟨j, hj, rfl | rfl⟩ := hclose
    · exact (ho.unused j hj).1.symm
    · exact (ho.unused j hj).2.symm
  · have hkeep : ∀ j < n - 1, ¬ (fd = (pipefds j).1 ∨ fd = (pipefds j).2) := fun j hj h =>
      hclose ⟨j, hj, h⟩
    rw [hloop.2 hkeep]
    exact ho.other fd fun j hj => not_or.mp (hkeep j hj)

/-- The only ends that a process holds are the two that child `i` uses. -/
theorem holds_iff {ended : Set ℕ} {process : Process} (hp : process ∈ alive n ended)
    {file : OpenFile F} (hfile : ∀ f, file ≠ .other f) :
    (processTable start pipefds n process).Holds file ↔ ∃ i < n, process = .child i ∧
      (0 < i ∧ file = .readEnd (i - 1) ∨ i + 1 < n ∧ file = .writeEnd i) := by
  have hnot : ∀ fd, inherited start fd ≠ some file := by
    intro fd hfd
    obtain ⟨f, hf⟩ := inherited_other hfd
    exact hfile f hf
  constructor
  · intro ⟨fd, hfd⟩
    rcases hp with rfl | ⟨i, hi, -, rfl⟩
    · rw [processTable, parentTable_eq hfresh] at hfd
      exact absurd hfd (hnot fd)
    · rw [processTable, childTable_apply hopen hfresh hi] at hfd
      refine ⟨i, hi, rfl, ?_⟩
      split at hfd
      · next hread => exact .inl ⟨hread.1, (Option.some.inj hfd).symm⟩
      · split at hfd
        · next hwrite => exact .inr ⟨hwrite.1, (Option.some.inj hfd).symm⟩
        · exact absurd hfd (hnot fd)
  · rintro ⟨i, hi, rfl, ⟨hfirst, rfl⟩ | ⟨hlast, rfl⟩⟩
    · refine ⟨0, ?_⟩
      rw [processTable, childTable_apply hopen hfresh hi, if_pos ⟨hfirst, rfl⟩]
    · refine ⟨1, ?_⟩
      rw [processTable, childTable_apply hopen hfresh hi, if_neg (by omega), if_pos ⟨hlast, rfl⟩]

theorem writes_iff (hk : k + 1 < n) {ended : Set ℕ} {process : Process}
    (hp : process ∈ alive n ended) :
    (processTable start pipefds n process).Holds (.writeEnd k) ↔ process = .child k := by
  rw [holds_iff hopen hfresh hp (by simp)]
  constructor
  · rintro ⟨i, -, rfl, ⟨-, hread⟩ | ⟨-, hwrite⟩⟩
    · contradiction
    · rw [OpenFile.writeEnd.inj hwrite]
  · rintro rfl
    exact ⟨k, by omega, rfl, .inr ⟨hk, rfl⟩⟩

theorem reads_iff (hk : k + 1 < n) {ended : Set ℕ} {process : Process}
    (hp : process ∈ alive n ended) :
    (processTable start pipefds n process).Holds (.readEnd k) ↔ process = .child (k + 1) := by
  rw [holds_iff hopen hfresh hp (by simp)]
  constructor
  · rintro ⟨i, -, rfl, ⟨hpos, hread⟩ | ⟨-, hwrite⟩⟩
    · obtain rfl := OpenFile.readEnd.inj hread
      rw [Nat.sub_add_cancel hpos]
    · contradiction
  · rintro rfl
    exact ⟨k + 1, hk, rfl, .inl ⟨Nat.succ_pos k, rfl⟩⟩

theorem atEof_of_ended (hk : k + 1 < n) {ended : Set ℕ} (hended : k ∈ ended) :
    Descriptors.AtEof (processTable start pipefds n) (alive n ended) k := by
  intro process hp hholds
  obtain rfl := (writes_iff hopen hfresh hk hp).mp hholds
  obtain h | ⟨i, -, halive, heq⟩ := hp
  · contradiction
  · obtain rfl := Process.child.inj heq
    exact halive hended

end Wiring

/-- Whatever descriptors the pipes get, a pipeline of any length is wired. -/
theorem pipeline_wired (start : ℕ → Option F) (pipefds : ℕ → ℕ × ℕ) (n : ℕ)
    (hopen : ∀ fd < 3, start fd ≠ none) (hfresh : FreshPipes start pipefds n) :
    Wired start pipefds n where
  stdin i hi := by
    rw [childTable_apply hopen hfresh hi]
    by_cases hfirst : i = 0
    · rw [if_neg (by omega), if_neg (by omega), if_pos hfirst]
    · rw [if_pos ⟨by omega, rfl⟩, if_neg hfirst]
  stdout i hi := by
    rw [childTable_apply hopen hfresh hi, if_neg (by omega)]
    by_cases hlast : i = n - 1
    · rw [if_neg (by omega), if_pos hlast]
    · rw [if_pos ⟨by omega, rfl⟩, if_neg hlast]
  others i hi fd hfd := by
    rw [childTable_apply hopen hfresh hi, if_neg (by omega), if_neg (by omega)]
  parent := parentTable_eq hfresh
  writer k hk process hp := writes_iff hopen hfresh hk hp
  reader k hk process hp := reads_iff hopen hfresh hk hp
  eof ended hzero hnext i hi := by
    induction i with
    | zero => exact hzero
    | succ k ih => exact hnext k hi (atEof_of_ended hopen hfresh hi (ih (by omega)))

/-- Three commands; the pipes get the descriptors 3 to 6. -/
theorem threeCommands_wired : Wired (fun fd => if fd < 3 then some () else none)
    (fun i => (2 * i + 3, 2 * i + 4)) 3 :=
  pipeline_wired _ _ 3 (by decide) (by unfold FreshPipes; decide)

end Pipes
end AdvancedCProjects.Terminal
