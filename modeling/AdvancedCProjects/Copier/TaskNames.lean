import AdvancedCProjects.Base.Loans
import AdvancedCProjects.Copier.Effects
import AdvancedCProjects.Copier.Tasks

/-!
# The name in a task (program.c:192-274, 382-436)

The filename of a task is a pointer to the path buffer of the thread that has added
it. The thread writes its next path there, and the buffer goes with the thread, also
while the task is still in the task buffer or being copied. Beside a run it is
recorded on which path each descriptor was opened for writing.
-/

namespace AdvancedCProjects.Copier
open Base

namespace State

/-- The thread whose stack has the buffers, until it has exited. -/
def live (s : State) (i : ℕ) : Option Traversal := s.traversals[i]?.filter (·.pc ≠ .exited)

/-- What is read through a pointer; nothing if the buffer has gone. -/
def name? (s : State) : Cell → Option Bytes
  | .mainSource => some s.sourceDir
  | .mainDest => some s.destPath
  | .srcPath i => (s.live i).map Traversal.srcPath
  | .destPath i => (s.live i).map Traversal.destPath
  | .destSubdir i => (s.live i).map Traversal.destSubdir

def inHand (s : State) : List Task := s.workers.flatMap (·.copying.toList)

/-- The tasks that `copy_fd` may still print the name of. -/
def toCopy (size : ℕ) (s : State) : List Task := s.inHand ++ s.buffer.contents size

/-- The path buffer that a step changes, with what is in it then. -/
def newPath (s : State) : Action → Option (ℕ × Option Bytes)
  | .traverse i reply =>
    match s.traversals[i]? with
    | some th =>
      match th.pc, reply with
      | .readdir, .failure => some (i, none)
      | .readdir, .entry name =>
        if name = utf8 "." ∨ name = utf8 ".." then none
        else some (i, some (snprintf (s.read th.destDir) name))
      | _, _ => none
    | none => none
  | _ => none

/-- The path that a descriptor is opened on is recorded. -/
def recordOpened (s : State) (a : Action) (opened : ℕ → Bytes) : ℕ → Bytes :=
  match a with
  | .traverse i (.fd fd) =>
    match s.traversals[i]? with
    | some th =>
      match th.pc with
      | .openDest _ _ => Function.update opened fd th.destPath
      | _ => opened
    | none => opened
  | _ => opened

end State

/-- The runs of the program, with the paths of its descriptors. -/
def pathedCopier (size threads : ℕ) : Machine (State × (ℕ → Bytes)) Action :=
  (copier size threads).recorded (fun _ _ => []) State.recordOpened

/-- The name that `copy_fd` would print for a task is the path on which `dest_fd`
was opened. -/
def NamesRight (s : State) (opened : ℕ → Bytes) : Prop :=
  ∀ (i : ℕ) (pc : WorkerPc) (task : Task), s.workers[i]? = some pc → pc.copying = some task →
    s.name? task.filename = some (opened task.destFd)

/-- A thread does not go to its next entry, or exit, while its path buffer has the
name of a task that is still to be copied, unless it writes the same path again. -/
def LeavesNames (size : ℕ) (s : State) (a : Action) : Prop :=
  ∀ w ∈ s.newPath a, ∀ task ∈ s.toCopy size, task.filename = .destPath w.1 →
    s.name? task.filename = w.2

instance (size : ℕ) (s : State) (a : Action) : Decidable (LeavesNames size s a) :=
  inferInstanceAs (Decidable (∀ w ∈ s.newPath a, ∀ task ∈ s.toCopy size,
    task.filename = .destPath w.1 → s.name? task.filename = w.2))

/-! ### What is lent -/

/-- The names of the tasks, each with the path that it has to read. -/
def loans (opened : ℕ → Bytes) (tasks : List Task) : List (Cell × Bytes) :=
  tasks.map fun task => (task.filename, opened task.destFd)

/-- Each task has its name from a thread that has its directory open. -/
structure Lent (s : State) (opened : ℕ → Bytes) (tasks : List Task) : Prop where
  owned : ∀ task ∈ tasks, ∃ i th, task.filename = .destPath i ∧ s.traversals[i]? = some th ∧
    th.pc.reading = true
  intact : Intact s.name? (loans opened tasks)

/-- A thread that has opened a file still has the path of it. -/
def FilesOpened (s : State) (opened : ℕ → Bytes) : Prop :=
  ∀ (i : ℕ) (th : Traversal) (file : OpenFile), s.traversals[i]? = some th →
    th.pc.file? = some file → opened file.destFd = th.destPath

/-- The threads that read keep their paths, and no file is new. -/
structure SamePaths (s t : State) : Prop where
  kept : ∀ (i : ℕ) (th : Traversal), s.traversals[i]? = some th → th.pc.reading = true →
    ∃ th', t.traversals[i]? = some th' ∧ th'.pc.reading = true ∧ th'.destPath = th.destPath
  files : ∀ (i : ℕ) (th : Traversal) (file : OpenFile), t.traversals[i]? = some th →
    th.pc.file? = some file → ∃ th', s.traversals[i]? = some th' ∧ th'.pc.file? = some file ∧
      th'.destPath = th.destPath

section Lent
variable {size threads i : ℕ} {s t u : State} {opened : ℕ → Bytes} {tasks tasks' : List Task}
  {task : Task} {th th' : Traversal} {c : Option Bytes} {fd : ℕ}

theorem State.name?_eq (hth : s.traversals[i]? = some th) (hread : th.pc.reading = true) :
    s.name? (.destPath i) = some th.destPath := by
  have hexit : th.pc ≠ .exited := by
    intro h
    rw [h] at hread
    contradiction
  simp [State.name?, State.live, hth, hexit]

theorem mem_loans {l : Cell × Bytes} (h : l ∈ loans opened tasks) :
    ∃ task ∈ tasks, l.1 = task.filename ∧ l.2 = opened task.destFd := by
  obtain ⟨task, hmem, rfl⟩ := List.mem_map.mp h
  exact ⟨task, hmem, rfl, rfl⟩

theorem Lent.mono (h : Lent s opened tasks) (sub : tasks' ⊆ tasks) : Lent s opened tasks' :=
  ⟨fun task hmem => h.owned task (sub hmem), h.intact.mono (List.map_subset _ sub)⟩

theorem Lent.lend (h : Lent s opened tasks) (hname : task.filename = .destPath i)
    (hth : s.traversals[i]? = some th) (hread : th.pc.reading = true)
    (hpath : th.destPath = opened task.destFd) : Lent s opened (task :: tasks) := by
  constructor
  · intro x hx
    rcases List.mem_cons.mp hx with rfl | hold
    · exact ⟨i, th, hname, hth, hread⟩
    · exact h.owned x hold
  · refine h.intact.lend ?_
    rw [hname, State.name?_eq hth hread, hpath]

theorem Lent.same (h : Lent s opened tasks) (hpaths : SamePaths s t) : Lent t opened tasks := by
  constructor
  · intro task hmem
    obtain ⟨i, th, hname, hth, hread⟩ := h.owned task hmem
    obtain ⟨th', hth', hread', -⟩ := hpaths.kept i th hth hread
    exact ⟨i, th', hname, hth', hread'⟩
  · refine h.intact.congr fun l hl => ?_
    obtain ⟨task, hmem, hcell, -⟩ := mem_loans hl
    obtain ⟨i, th, hname, hth, hread⟩ := h.owned task hmem
    obtain ⟨th', hth', hread', hpath⟩ := hpaths.kept i th hth hread
    rw [hcell, hname, State.name?_eq hth hread, State.name?_eq hth' hread', hpath]

theorem Lent.reopen (h : Lent s opened tasks) (hfd : ∀ task ∈ tasks, task.destFd ≠ fd)
    (path : Bytes) : Lent s (Function.update opened fd path) tasks := by
  refine ⟨h.owned, ?_⟩
  have hloans : loans (Function.update opened fd path) tasks = loans opened tasks := by
    refine List.map_congr_left fun task hmem => ?_
    rw [Function.update_of_ne (hfd task hmem)]
  rw [hloans]
  exact h.intact

theorem FilesOpened.same (h : FilesOpened s opened) (hpaths : SamePaths s t) :
    FilesOpened t opened := by
  intro i th file hth hfile
  obtain ⟨th', hth', hfile', hpath⟩ := hpaths.files i th file hth hfile
  rw [← hpath]
  exact h i th' file hth' hfile'

theorem SamePaths.refl (s : State) : SamePaths s s :=
  ⟨fun _ th hth hread => ⟨th, hth, hread, rfl⟩, fun _ th _ hth hfile => ⟨th, hth, hfile, rfl⟩⟩

theorem SamePaths.congr (h : SamePaths s t) (hu : u.traversals = t.traversals) : SamePaths s u := by
  constructor
  · intro i th hth hread
    rw [hu]
    exact h.kept i th hth hread
  · intro i th file hth hfile
    rw [hu] at hth
    exact h.files i th file hth hfile

theorem SamePaths.wakes (h : s.WakesTraversal t) : SamePaths s t := by
  cases h with
  | nobody => exact .refl s
  | @one j x file hj hpc =>
    have hlt := (List.getElem?_eq_some_iff.mp hj).1
    constructor
    · intro i th hth hread
      by_cases hji : j = i
      · subst hji
        rw [hj] at hth
        cases hth
        exact ⟨_, List.getElem?_set_self hlt, rfl, rfl⟩
      · exact ⟨th, by rw [List.getElem?_set_ne hji, hth], hread, rfl⟩
    · intro i th file' hth hfile
      rcases getElem?_set_some hth with ⟨rfl, rfl⟩ | ⟨-, hold⟩
      · exact ⟨x, hj, by rw [hpc]; exact hfile, rfl⟩
      · exact ⟨th, hold, hfile, rfl⟩

end Lent

/-! ### What is open -/

section Open
variable {size threads i : ℕ} {s t u : State} {task : Task} {th : Traversal} {file : OpenFile}
  {pc : WorkerPc} {fd : ℕ} {r : Reply}

theorem Invariant.fd_open (hi : Invariant size s)
    (h : fd ∈ closings (s.workers.flatMap WorkerPc.todo ++
        (s.buffer.contents size).flatMap Task.handling) ∨
      fd ∈ s.traversals.flatMap fun th => th.pc.fds) : fd ∈ s.fds := by
  obtain ⟨pending, hholds, heq⟩ := hi.books.tallied
  have hfd := hi.descriptors fd
  rw [← heq, List.append_assoc, closings_append, List.count_append] at hfd
  rw [hholds.contents_eq] at h
  apply List.count_pos_iff.mp
  rcases h with hleft | hfile
  · have hpos := List.count_pos_iff.mpr hleft
    omega
  · have hpos := List.count_pos_iff.mpr hfile
    omega

theorem WorkerPc.todo_of_copying (h : pc.copying = some task) :
    .closed task.destFd ∈ pc.todo := by
  cases pc <;> cases h <;> simp [WorkerPc.todo, Task.handling]

theorem mem_closings : fd ∈ closings hs ↔ .closed fd ∈ hs := by
  rw [closings, List.mem_filterMap]
  constructor
  · rintro ⟨x, hx, heq⟩
    cases x with
    | copied task => contradiction
    | closed fd' =>
      cases heq
      exact hx
  · intro h
    exact ⟨_, h, rfl⟩

theorem Invariant.toCopy_open (hi : Invariant size s) (h : task ∈ s.toCopy size) :
    task.destFd ∈ s.fds := by
  refine hi.fd_open (.inl (mem_closings.mpr ?_))
  rcases List.mem_append.mp h with hhand | hbuffer
  · obtain ⟨pc, hpc, hmem⟩ := List.mem_flatMap.mp hhand
    refine List.mem_append_left _ (List.mem_flatMap.mpr ⟨pc, hpc, ?_⟩)
    exact WorkerPc.todo_of_copying (Option.mem_toList.mp hmem)
  · refine List.mem_append_right _ (List.mem_flatMap.mpr ⟨task, hbuffer, ?_⟩)
    simp [Task.handling]

theorem Invariant.file_open (hi : Invariant size s) (hth : s.traversals[i]? = some th)
    (hfile : th.pc.file? = some file) : file.destFd ∈ s.fds := by
  refine hi.fd_open (.inr (List.mem_flatMap.mpr ⟨th, List.mem_of_getElem? hth, ?_⟩))
  cases hpc : th.pc <;> rw [hpc] at hfile <;> cases hfile <;> simp [TraversalPc.fds]

/-! ### What is still to be copied -/

theorem toCopy_of_mem (hworkers : ∀ pc ∈ t.workers, ∀ task, pc.copying = some task →
      task ∈ s.toCopy size) (hbuffer : t.buffer.contents size ⊆ s.buffer.contents size) :
    t.toCopy size ⊆ s.toCopy size := by
  intro task hmem
  rcases List.mem_append.mp hmem with hhand | hpending
  · obtain ⟨pc, hpc, htask⟩ := List.mem_flatMap.mp hhand
    exact hworkers pc hpc task (Option.mem_toList.mp htask)
  · exact List.mem_append_right _ (hbuffer hpending)

theorem mem_toCopy (hpc : pc ∈ s.workers) (htask : pc.copying = some task) :
    task ∈ s.toCopy size :=
  List.mem_append_left _ (List.mem_flatMap.mpr ⟨pc, hpc, Option.mem_toList.mpr htask⟩)

theorem State.WakesWorker.inHand (h : s.WakesWorker t) : t.inHand = s.inHand := by
  cases h with
  | nobody => rfl
  | one hj => exact flatMap_set_congr hj rfl

theorem toCopy_main {mpc' : MainPc} (hmove : MainMove threads s s.main mpc' u) :
    (u.mainAt mpc').toCopy size ⊆ s.toCopy size := by
  generalize s.main = mpc at hmove
  cases hmove with
  | createWorker =>
    refine toCopy_of_mem (fun pc hpc task htask => ?_) (List.Subset.refl _)
    rcases List.mem_append.mp hpc with hold | hnew
    · exact mem_toCopy hold htask
    · rw [List.mem_singleton.mp hnew] at htask
      contradiction
  | broadcast =>
    refine toCopy_of_mem (fun pc hpc task htask => ?_) (List.Subset.refl _)
    obtain ⟨pc, hold, rfl⟩ := List.mem_map.mp hpc
    refine mem_toCopy hold ?_
    cases pc <;> exact htask
  | _ => exact List.Subset.refl _

theorem toCopy_work (hi : Invariant size s) (hpc : s.workers[i]? = some pc)
    (h : s.work size i pc r = some t) : t.toCopy size ⊆ s.toCopy size := by
  obtain ⟨pending, hholds, -⟩ := hi.books.tallied
  obtain ⟨pc', hworkers, hstep⟩ := State.work_copyStep h
  obtain ⟨pc'', u, hmove, rfl⟩ := State.work_move h
  have hok := hi.books.workers i pc hpc
  have hhead (htake : pc = .take) :
      ∃ rest, pending = s.buffer.slots s.buffer.out :: rest := by
    cases pending with
    | nil =>
      rw [htake] at hok
      exact absurd (hholds.empty_iff.mpr rfl) hok
    | cons task rest => exact ⟨rest, by rw [hholds.head]⟩
  refine toCopy_of_mem (fun x hx task htask => ?_) ?_
  · rw [hworkers] at hx
    rcases List.mem_or_eq_of_mem_set hx with hold | rfl
    · exact mem_toCopy hold htask
    · have hmem := List.mem_of_getElem? hpc
      generalize (u.workerAt i pc'').stats = stats at hstep
      generalize (u.workerAt i pc'').written = written at hstep
      cases hstep with
      | onward hcopying =>
        rcases hcopying with hnone | hsame
        · rw [hnone] at htask
          contradiction
        · exact mem_toCopy hmem (hsame ▸ htask)
      | take =>
        obtain ⟨rest, hpending⟩ := hhead rfl
        cases htask
        refine List.mem_append_right _ ?_
        rw [hholds.contents_eq, hpending]
        exact List.mem_cons_self
      | write task bytesRead n => exact mem_toCopy hmem htask
      | count task n => exact mem_toCopy hmem htask
  · rcases hmove.buffer with hsame | ⟨htake, -, hdrop, -⟩
    · show u.buffer.contents size ⊆ _
      rw [hsame]
      exact List.Subset.refl _
    · obtain ⟨rest, hpending⟩ := hhead htake
      have hrest : (s.buffer.drop size).contents size = rest := (hpending ▸ hholds).drop.contents_eq
      show u.buffer.contents size ⊆ _
      rw [hdrop, hrest, hholds.contents_eq, hpending]
      exact List.subset_cons_self _ _

theorem toCopy_add (hi : Invariant size s) (hth : s.traversals[i]? = some th)
    (hadd : th.pc = .add file) (hinHand : t.inHand = s.inHand)
    (hbuffer : t.buffer = s.buffer.put size task) : t.toCopy size ⊆ task :: s.toCopy size := by
  obtain ⟨pending, hholds, -⟩ := hi.books.tallied
  have hroom := hi.books.traversals i th hth
  rw [hadd] at hroom
  have hput : t.buffer.contents size = pending ++ [task] := by
    rw [hbuffer, (hholds.put hroom).contents_eq]
  rw [State.toCopy, State.toCopy, hput, hholds.contents_eq, hinHand]
  intro x hx
  simp only [List.mem_append, List.mem_cons] at hx ⊢
  tauto

end Open

/-! ### The invariant -/

structure Named (size : ℕ) (s : State) (opened : ℕ → Bytes) : Prop where
  files : FilesOpened s opened
  lent : Lent s opened (s.toCopy size)

section Steps
variable {size threads i : ℕ} {s t u : State} {opened : ℕ → Bytes} {th th' : Traversal}
  {created : List Traversal} {r : Reply} {c : Option Bytes}

theorem Named.frame (h : Named size s opened) (hpaths : SamePaths s t)
    (htasks : t.toCopy size ⊆ s.toCopy size) : Named size t opened :=
  ⟨h.files.same hpaths, (h.lent.same hpaths).mono htasks⟩

theorem SamePaths.set (hth : s.traversals[i]? = some th)
    (ht : t.traversals = s.traversals.set i th' ++ created)
    (hcreated : ∀ child ∈ created, child.pc = .opendir) (hpath : th'.destPath = th.destPath)
    (hread : th.pc.reading = true → th'.pc.reading = true)
    (hfile : ∀ file, th'.pc.file? = some file → th.pc.file? = some file) : SamePaths s t := by
  have hlt := (List.getElem?_eq_some_iff.mp hth).1
  have old {j : ℕ} {x : Traversal} (hj : (s.traversals.set i th')[j]? = some x) :
      t.traversals[j]? = some x := by
    rw [ht, List.getElem?_append_left (List.getElem?_eq_some_iff.mp hj).1, hj]
  constructor
  · intro j x hj hx
    by_cases hij : i = j
    · subst hij
      rw [hth] at hj
      cases hj
      exact ⟨th', old (List.getElem?_set_self hlt), hread hx, hpath⟩
    · exact ⟨x, old (by rw [List.getElem?_set_ne hij, hj]), hx, rfl⟩
  · intro j x file hj hx
    rw [ht, List.getElem?_append] at hj
    split at hj
    · rcases getElem?_set_some hj with ⟨rfl, rfl⟩ | ⟨-, hold⟩
      · exact ⟨th, hth, hfile file hx, hpath.symm⟩
      · exact ⟨x, hold, hx, rfl⟩
    · have hnew := hcreated x (List.mem_of_getElem? hj)
      rw [hnew] at hx
      contradiction

theorem getElem?_moved {j : ℕ} {x : Traversal}
    (ht : t.traversals = s.traversals.set i th' ++ created) (hj : s.traversals[j]? = some x)
    (hij : i ≠ j) : t.traversals[j]? = some x := by
  have hlt := (List.getElem?_eq_some_iff.mp hj).1
  rw [ht, List.getElem?_append_left (by rwa [List.length_set]), List.getElem?_set_ne hij, hj]

theorem getElem?_mover (ht : t.traversals = s.traversals.set i th' ++ created)
    (hth : s.traversals[i]? = some th) : t.traversals[i]? = some th' := by
  have hlt := (List.getElem?_eq_some_iff.mp hth).1
  rw [ht, List.getElem?_append_left (by rwa [List.length_set]), List.getElem?_set_self hlt]

theorem State.name?_exited (hth : s.traversals[i]? = some th) (hexit : th.pc = .exited) :
    s.name? (.destPath i) = none := by
  simp [State.name?, State.live, hth, hexit]

/-- The path buffer of thread `i` is written, or it goes. -/
theorem Lent.write {tasks : List Task} (h : Lent s opened tasks)
    (hth : s.traversals[i]? = some th) (ht : t.traversals = s.traversals.set i th' ++ created)
    (hlive : th'.pc.reading = true ∨ th'.pc = .exited)
    (hkeep : ∀ task ∈ tasks, task.filename = .destPath i →
      s.name? (.destPath i) = t.name? (.destPath i)) : Lent t opened tasks := by
  have hself := getElem?_mover ht hth
  have hupdate : Intact (Function.update s.name? (.destPath i) (t.name? (.destPath i)))
      (loans opened tasks) := by
    refine h.intact.update_iff.mpr fun l hl heq => ?_
    obtain ⟨task, hmem, hcell, -⟩ := mem_loans hl
    exact hkeep task hmem (hcell.symm.trans heq)
  have hintact : Intact t.name? (loans opened tasks) := by
    refine hupdate.congr fun l hl => ?_
    obtain ⟨task, hmem, hcell, -⟩ := mem_loans hl
    obtain ⟨j, x, hname, hj, hread⟩ := h.owned task hmem
    rw [hcell, hname]
    by_cases hij : i = j
    · rw [hij, Function.update_self]
    · have hne : Cell.destPath j ≠ .destPath i := fun heq => hij (Cell.destPath.inj heq).symm
      rw [Function.update_of_ne hne, State.name?_eq hj hread,
        State.name?_eq (getElem?_moved ht hj hij) hread]
  refine ⟨fun task hmem => ?_, hintact⟩
  obtain ⟨j, x, hname, hj, hread⟩ := h.owned task hmem
  by_cases hij : i = j
  · subst hij
    refine ⟨i, th', hname, hself, hlive.resolve_right fun hexit => ?_⟩
    have hread' := hintact _ (List.mem_map_of_mem hmem)
    rw [hname, State.name?_exited hself hexit] at hread'
    contradiction
  · exact ⟨j, x, hname, getElem?_moved ht hj hij, hread⟩

theorem FilesOpened.leave (h : FilesOpened s opened)
    (ht : t.traversals = s.traversals.set i th' ++ created)
    (hcreated : ∀ child ∈ created, child.pc = .opendir) (hfile : th'.pc.file? = none) :
    FilesOpened t opened := by
  intro j x file hj hx
  rw [ht, List.getElem?_append] at hj
  split at hj
  · rcases getElem?_set_some hj with ⟨-, rfl⟩ | ⟨-, hold⟩
    · rw [hfile] at hx
      contradiction
    · exact h j x file hold hx
  · rw [hcreated x (List.mem_of_getElem? hj)] at hx
    contradiction

theorem newPath_entry {name : Bytes} (hth : s.traversals[i]? = some th) (hpc : th.pc = .readdir)
    (hname : ¬ (name = utf8 "." ∨ name = utf8 "..")) :
    s.newPath (.traverse i (.entry name)) = some (i, some (snprintf (s.read th.destDir) name)) := by
  simp only [State.newPath, hth, hpc, if_neg hname]

theorem newPath_finished (hth : s.traversals[i]? = some th) (hpc : th.pc = .readdir) :
    s.newPath (.traverse i .failure) = some (i, none) := by
  simp only [State.newPath, hth, hpc]

theorem traverse_inHand (hth : s.traversals[i]? = some th)
    (hn : s.traverse size i th th.pc r = some t) : t.inHand = s.inHand := by
  obtain ⟨th', u, -, -, hmove, rfl⟩ := State.traverse_move hth hn rfl
  obtain ⟨-, ⟨v, hv, -, hws⟩, -⟩ := hmove.wakes
  have hhand := hv.inHand
  rw [State.inHand, ← hws] at hhand
  exact hhand

theorem Named.openDest {name : Bytes} {srcFd fd : ℕ} (h : Named size s opened)
    (hi : Invariant size s) (hth : s.traversals[i]? = some th) (hpc : th.pc = .openDest name srcFd)
    (hn : s.traverse size i th (.openDest name srcFd) (.fd fd) = some t) :
    Named size t (Function.update opened fd th.destPath) := by
  obtain ⟨hfd, rfl⟩ := State.openFd_eq hn
  have hfd : fd ∉ s.fds := hfd
  have hlt := (List.getElem?_eq_some_iff.mp hth).1
  constructor
  · intro j x file hj hx
    rcases getElem?_set_some hj with ⟨rfl, rfl⟩ | ⟨-, hold⟩
    · cases hx
      exact Function.update_self ..
    · have hopen := hi.file_open hold hx
      have hne : file.destFd ≠ fd := fun heq => hfd (heq ▸ hopen)
      rw [Function.update_of_ne hne]
      exact h.files j x file hold hx
  · have hfree (task : Task) (hmem : task ∈ s.toCopy size) : task.destFd ≠ fd :=
      fun heq => hfd (heq ▸ hi.toCopy_open hmem)
    have hread : th.pc.reading = true := by rw [hpc]; rfl
    refine (h.lent.reopen hfree th.destPath).write hth (List.append_nil _).symm (.inl rfl) ?_
    intro task _ _
    rw [State.name?_eq hth hread]
    exact (@State.name?_eq i _ { th with pc := .insert ⟨name, srcFd, fd⟩ }
      (List.getElem?_set_self hlt) rfl).symm

theorem Named.traverse (h : Named size s opened) (hi : Invariant size s)
    (hth : s.traversals[i]? = some th) (hn : s.traverse size i th th.pc r = some t)
    (hok : LeavesNames size s (.traverse i r)) :
    Named size t (s.recordOpened (.traverse i r) opened) := by
  by_cases hopen : ∃ name srcFd fd, th.pc = .openDest name srcFd ∧ r = .fd fd
  · obtain ⟨name, srcFd, fd, hpc, rfl⟩ := hopen
    have hrecord : s.recordOpened (.traverse i (.fd fd)) opened =
        Function.update opened fd th.destPath := by
      simp only [State.recordOpened, hth, hpc]
    rw [hrecord]
    rw [hpc] at hn
    exact h.openDest hi hth hpc hn
  have hrecord : s.recordOpened (.traverse i r) opened = opened := by
    cases r with
    | fd fd =>
      simp only [State.recordOpened, hth]
      split
      · next name srcFd hpc => exact absurd ⟨name, srcFd, fd, hpc, rfl⟩ hopen
      · rfl
    | _ => rfl
  rw [hrecord]
  have hhand := traverse_inHand hth hn
  obtain ⟨th', created, ht, hcreated, hstep⟩ := State.traverse_moved hth hn rfl
  have hsub (hbuffer : t.buffer = s.buffer) : t.toCopy size ⊆ s.toCopy size := by
    rw [State.toCopy, State.toCopy, hhand, hbuffer]
    exact List.Subset.refl _
  generalize hpc : th.pc = pc at hstep
  cases hstep with
  | onward hpath hfile _ hread hsame =>
    refine h.frame (.set hth ht hcreated hpath ?_ ?_) (hsub hsame.buffer)
    · rwa [hpc]
    · rw [hpc, hfile]
      exact fun _ => id
  | @entry name t hname hsame =>
    refine ⟨h.files.leave ht hcreated rfl, ?_⟩
    refine (h.lent.mono (hsub hsame.buffer)).write hth ht (.inl rfl) fun task hmem heq => ?_
    have hkeep := hok _ (newPath_entry hth hpc hname) task (hsub hsame.buffer hmem) heq
    rw [← heq, hkeep, heq]
    exact (State.name?_eq (getElem?_mover ht hth) rfl).symm
  | finished hsame =>
    refine ⟨h.files.leave ht hcreated rfl, ?_⟩
    refine (h.lent.mono (hsub hsame.buffer)).write hth ht (.inr rfl) fun task hmem heq => ?_
    have hkeep := hok _ (newPath_finished hth hpc) task (hsub hsame.buffer hmem) heq
    rw [← heq, hkeep, heq]
    exact (State.name?_exited (getElem?_mover ht hth) rfl).symm
  | openDest hsame => exact absurd ⟨_, _, _, hpc, rfl⟩ hopen
  | @insert file _ _ _ hbuffer _ =>
    refine h.frame (.set hth ht hcreated rfl (fun _ => rfl) ?_) (hsub hbuffer)
    rw [hpc]
    exact fun _ => id
  | @add file _ _ _ hbuffer _ =>
    have hpaths : SamePaths s t := by
      refine .set hth ht hcreated rfl (fun _ => rfl) ?_
      intro x hx
      contradiction
    have hpath : th.destPath = opened file.destFd :=
      (h.files i th file hth (by rw [hpc]; rfl)).symm
    have hread : th.pc.reading = true := by rw [hpc]; rfl
    have hlent : Lent s opened (⟨file.srcFd, file.destFd, .destPath i⟩ :: s.toCopy size) :=
      h.lent.lend rfl hth hread hpath
    exact ⟨h.files.same hpaths, (hlent.same hpaths).mono (toCopy_add hi hth hpc hhand hbuffer)⟩
  | @count o _ _ _ hbuffer _ =>
    refine h.frame (.set hth ht hcreated rfl ?_ ?_) (hsub hbuffer)
    · rw [hpc]
      cases o <;> exact id
    · rw [hpc]
      exact fun _ => id

theorem SamePaths.main {mpc' : MainPc} (hl : Locked s)
    (hmove : MainMove threads s s.main mpc' u) : SamePaths s (u.mainAt mpc') := by
  generalize hm : s.main = mpc at hmove
  cases hmove with
  | createRoot =>
    have hnil := hl.fresh hm
    constructor
    · intro j x hj
      rw [hnil] at hj
      contradiction
    · intro j x file hj hx
      rw [List.mem_singleton.mp (List.mem_of_getElem? hj)] at hx
      contradiction
  | _ => exact (SamePaths.refl s).congr rfl

theorem Named.step {a : Action} (h : Named size s opened) (hi : Invariant size s)
    (hok : LeavesNames size s a) (hn : (copier size threads).next s a = some t) :
    Named size t (s.recordOpened a opened) := by
  cases copier_acts hn with
  | main hmove => exact h.frame (.main hi.locked hmove) (toCopy_main hmove)
  | traverse hth hn => exact h.traverse hi hth hn hok
  | work hpc hn =>
    have hsub := toCopy_work hi hpc hn
    obtain ⟨pc', u, hmove, rfl⟩ := State.work_move hn
    obtain ⟨-, -, v, hv, -, hts⟩ := hmove.wakes
    exact h.frame ((SamePaths.wakes hv).congr hts) hsub
  | spuriousTraversal hu =>
    refine h.frame (.wakes hu) ?_
    cases hu <;> exact List.Subset.refl _
  | spuriousWorker hu =>
    have hhand := hu.inHand
    have hsub : t.toCopy size ⊆ s.toCopy size := by
      rw [State.toCopy, hhand]
      cases hu <;> exact List.Subset.refl _
    refine h.frame ?_ hsub
    cases hu <;> exact (SamePaths.refl s).congr rfl

end Steps

/-! ### Whole runs -/

theorem pathedCopier_inductive {size : ℕ} (hsize : 0 < size) (threads : ℕ) :
    (pathedCopier size threads).Inductive (fun s a => LeavesNames size s.1 a)
      fun s => Invariant size s.1 ∧ Named size s.1 s.2 where
  base s := by
    obtain ⟨s, opened⟩ := s
    intro ⟨hs, _⟩
    have hs : s.Start := hs
    have hi : Invariant size s := (copier_inductive hsize threads).base s hs
    have hnone : s.toCopy size = [] := by
      obtain ⟨pending, hholds, -⟩ := hi.books.tallied
      rw [State.toCopy, hholds.contents_eq, hholds.empty_iff.mp (by rw [hs.inp, hs.out]),
        State.inHand, hs.workers]
      rfl
    refine ⟨hi, fun i th file hth => ?_, ?_⟩
    · rw [hs.traversals] at hth
      contradiction
    · show Lent s opened (s.toCopy size)
      rw [hnone]
      exact ⟨fun _ hmem => absurd hmem List.not_mem_nil, .nil _⟩
  keep s a t h hok hn := by
    obtain ⟨u, hu, rfl⟩ := Option.map_eq_some_iff.mp hn
    exact ⟨(copier_inductive hsize threads).keep s.1 a u h.1 trivial hu, h.2.step h.1 hok hu⟩

section Exact
variable {size threads : ℕ} {s t : State} {opened : ℕ → Bytes} {a : Action}
  {w : ℕ × Option Bytes}

theorem newPath_written (opened : ℕ → Bytes) (hw : s.newPath a = some w)
    (hn : (copier size threads).next s a = some t) :
    t.name? (.destPath w.1) = w.2 ∧ t.toCopy size = s.toCopy size ∧
      s.recordOpened a opened = opened := by
  have hacts := copier_acts hn
  clear hn
  cases hacts with
  | @traverse i th r _ hth hn =>
    have hlt := (List.getElem?_eq_some_iff.mp hth).1
    simp only [State.newPath, hth] at hw
    split at hw
    · next hpc =>
      rw [hpc] at hn
      cases hw
      cases hn
      exact ⟨State.name?_exited (List.getElem?_set_self hlt) rfl, rfl, rfl⟩
    · next name hpc =>
      rw [hpc] at hn
      split at hw
      · contradiction
      · next hname =>
        cases hw
        simp only [State.traverse, if_neg hname] at hn
        have ht : t.traversals = s.traversals.set i { th with
            srcPath := snprintf (s.read th.sourceDir) name
            destPath := snprintf (s.read th.destDir) name
            pc := .stat name } ++ [] := by
          cases hn
          exact (List.append_nil _).symm
        refine ⟨State.name?_eq (getElem?_mover ht hth) rfl, ?_, rfl⟩
        cases hn
        rfl
    · contradiction
  | _ => contradiction

/-- A step that does not leave the names takes one from a task that is still to be
copied. -/
theorem Named.taken (h : Named size s opened) (hn : (copier size threads).next s a = some t)
    (hok : ¬ LeavesNames size s a) :
    ∃ task ∈ t.toCopy size, t.name? task.filename ≠ some (s.recordOpened a opened task.destFd) := by
  simp only [LeavesNames] at hok
  push Not at hok
  obtain ⟨w, hw, task, hmem, hname, hne⟩ := hok
  obtain ⟨hwritten, htasks, hrecord⟩ := newPath_written opened hw hn
  refine ⟨task, htasks ▸ hmem, fun hright => hne ?_⟩
  have hread := h.lent.intact _ (List.mem_map_of_mem hmem)
  rw [hname, hwritten, hrecord] at hright
  exact hread.trans hright.symm

end Exact

theorem Named.right {size : ℕ} {s : State} {opened : ℕ → Bytes} (h : Named size s opened) :
    NamesRight s opened := by
  intro i pc task hpc htask
  have hmem : task ∈ s.toCopy size := mem_toCopy (List.mem_of_getElem? hpc) htask
  exact h.lent.intact _ (List.mem_map_of_mem hmem)

/-- In a run in which no thread changes a path buffer that still has the name of a
task to be copied, the names are right; and a step that does takes the right name
from such a task. -/
theorem names_right {size threads : ℕ} (hsize : 0 < size) {s : State} {opened : ℕ → Bytes}
    (hr : (pathedCopier size threads).Reaches (fun s a => LeavesNames size s.1 a) (s, opened)) :
    NamesRight s opened ∧
    ∀ (a : Action) (t : State) (opened' : ℕ → Bytes),
      (pathedCopier size threads).next (s, opened) a = some (t, opened') →
      ¬ LeavesNames size s a →
      ∃ task ∈ t.toCopy size, t.name? task.filename ≠ some (opened' task.destFd) := by
  obtain ⟨-, hnamed⟩ := (pathedCopier_inductive hsize threads).holds hr
  refine ⟨hnamed.right, fun a t opened' hn hok => ?_⟩
  obtain ⟨u, hu, heq⟩ := Option.map_eq_some_iff.mp hn
  cases heq
  exact hnamed.taken hu hok

theorem pathedCopier_start : (pathedCopier 2 1).start (.init, fun _ => []) :=
  ⟨State.init_start, rfl⟩

def addsFirst : List Reply :=
  [.ok, .entry (utf8 "a"), .mode .regular, .fd 3, .fd 4, .ok, .ok, .ok, .ok, .wake none, .ok]

def firstTask : Task := ⟨3, 4, .destPath 0⟩

/-- The worker begins with the file while its name is still there. -/
def nameKept : List Action :=
  List.replicate 2 (.main .ok) ++ addsFirst.map (.traverse 0) ++ List.replicate 4 (.work 0 .ok)

def nameKeptState : State × (ℕ → Bytes) :=
  (((pathedCopier 2 1).guarded fun s a => LeavesNames 2 s.1 a).run
    (.init, fun _ => []) nameKept).get (by decide)

theorem nameKept_reaches : (pathedCopier 2 1).Reaches (fun s a => LeavesNames 2 s.1 a)
    (nameKeptState.1, nameKeptState.2) := by
  have hr : (pathedCopier 2 1).Reaches (fun s a => LeavesNames 2 s.1 a) nameKeptState :=
    Machine.Reaches.run (.start pathedCopier_start) nameKept (Option.some_get _).symm
  exact hr

theorem nameKept_right : nameKeptState.1.workers = [.copy firstTask] ∧
    nameKeptState.2 firstTask.destFd = utf8 "dst/a" ∧
    nameKeptState.1.name? firstTask.filename = some (nameKeptState.2 firstTask.destFd) := by
  have hworkers : nameKeptState.1.workers = [.copy firstTask] := by decide
  refine ⟨hworkers, by decide, ?_⟩
  exact (names_right Nat.two_pos nameKept_reaches).1 0 (.copy firstTask) firstTask
    (by rw [hworkers]; rfl) rfl

def goesOn : List Reply := [.ok, .ok, .ok, .entry (utf8 "b")]

/-- The thread goes on to `b`, and then the worker begins with `a`. -/
def nameTaken : List Action :=
  List.replicate 2 (.main .ok) ++ (addsFirst ++ goesOn).map (.traverse 0) ++
    List.replicate 4 (.work 0 .ok)

def nameTakenState : State × (ℕ → Bytes) :=
  ((pathedCopier 2 1).run (.init, fun _ => []) nameTaken).get (by decide)

theorem nameTaken_reachable :
    (pathedCopier 2 1).Reachable (nameTakenState.1, nameTakenState.2) := by
  have hr : (pathedCopier 2 1).Reachable nameTakenState :=
    Machine.Reachable.run (.start pathedCopier_start) nameTaken (Option.some_get _).symm
  exact hr

theorem nameTaken_wrong : ¬ ∀ (s : State) (opened : ℕ → Bytes),
    (pathedCopier 2 1).Reachable (s, opened) → NamesRight s opened := by
  intro h
  have hworkers : nameTakenState.1.workers = [.copy firstTask] := by decide
  have hname := h nameTakenState.1 nameTakenState.2 nameTaken_reachable 0 (.copy firstTask)
    firstTask (by rw [hworkers]; rfl) rfl
  have hprinted : nameTakenState.1.name? firstTask.filename = some (utf8 "dst/b") := by decide
  have hopened : nameTakenState.2 firstTask.destFd = utf8 "dst/a" := by decide
  rw [hprinted, hopened] at hname
  exact absurd hname (by decide)

end AdvancedCProjects.Copier
