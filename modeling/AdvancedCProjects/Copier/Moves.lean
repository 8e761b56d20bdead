import AdvancedCProjects.Copier.Program

/-!
# What one step of each thread does

A step is a move of the thread's program counter and a change of what the
threads share. The moves name the changes that matter for the tasks; what a
thread does for itself, under `output_mutex` too, is one of them.
-/

namespace AdvancedCProjects.Copier
open Base

def TraversalPc.holds : TraversalPc → Bool
  | .testFull _ | .wait _ | .add _ | .signal | .unlock => true
  | _ => false

/-- The files that the thread has open for a task it has not added. -/
def TraversalPc.fds : TraversalPc → List ℕ
  | .openDest _ srcFd | .closeSrc srcFd => [srcFd]
  | .lockOutput (.failedDest srcFd) | .inOutput (.failedDest srcFd)
  | .unlockOutput (.failedDest srcFd) => [srcFd]
  | .insert file | .lockBuffer file | .testFull file | .wait file | .asleep file | .woken file
  | .add file => [file.srcFd, file.destFd]
  | _ => []

def TraversalPc.isJoin : TraversalPc → Bool
  | .join _ => true
  | _ => false

def Task.handling (task : Task) : List Handling :=
  [.copied task, .closed task.srcFd, .closed task.destFd]

namespace WorkerPc

def holds : WorkerPc → Bool
  | .lock | .asleep | .woken | .exitSignal | .exited => false
  | _ => true

/-- What is left to do for the task in hand. -/
def todo : WorkerPc → List Handling
  | .copy task => task.handling
  | .read task | .write task _ | .lockOutput task _ | .inOutput task _ | .unlockOutput task _
  | .closeSrc task => [.closed task.srcFd, .closed task.destFd]
  | .closeDest task => [.closed task.destFd]
  | _ => []

end WorkerPc

namespace State

/-- A sleeper on `buffer_not_full` is woken, or nobody. -/
inductive WakesTraversal (s : State) : State → Prop where
  | nobody : WakesTraversal s s
  | one {j : ℕ} {th : Traversal} {file : OpenFile} :
    s.traversals[j]? = some th → th.pc = .asleep file →
    WakesTraversal s { s with traversals := s.traversals.set j { th with pc := .woken file } }

inductive WakesWorker (s : State) : State → Prop where
  | nobody : WakesWorker s s
  | one {j : ℕ} : s.workers[j]? = some .asleep →
    WakesWorker s { s with workers := s.workers.set j .woken }

variable {size threads i : ℕ} {s t : State} {r : Reply}

theorem wakeTraversal_wakes {j : ℕ} (h : s.wakeTraversal j = some t) : s.WakesTraversal t := by
  simp only [wakeTraversal] at h
  split at h
  · next th hth =>
    split at h
    · next hasleep =>
      cases hpc : th.pc with
      | asleep file =>
        cases h
        rw [hpc]
        exact .one hth hpc
      | _ => simp [hpc, TraversalPc.isAsleep] at hasleep
    · contradiction
  · contradiction

theorem wakeWorker_wakes {j : ℕ} (h : s.wakeWorker j = some t) : s.WakesWorker t := by
  simp only [wakeWorker] at h
  split at h
  · next hj =>
    cases h
    exact .one hj
  · contradiction

theorem signalNotFull_wakes (h : s.signalNotFull r = some t) : s.WakesTraversal t := by
  simp only [signalNotFull] at h
  split at h
  · exact wakeTraversal_wakes h
  · split at h
    · contradiction
    · cases h
      exact .nobody
  · contradiction

theorem signalNotEmpty_wakes (h : s.signalNotEmpty r = some t) : s.WakesWorker t := by
  simp only [signalNotEmpty] at h
  split at h
  · exact wakeWorker_wakes h
  · split at h
    · contradiction
    · cases h
      exact .nobody
  · contradiction

theorem lockBuffer_eq {me : Thread} (h : s.lockBuffer me = some t) :
    s.bufferMutex = none ∧ t = { s with bufferMutex := some me } := by
  simp only [lockBuffer] at h
  split at h
  · next hm => exact ⟨hm, (Option.some.inj h).symm⟩
  · contradiction

theorem lockOutput_eq {me : Thread} (h : s.lockOutput me = some t) :
    t = { s with outputMutex := some me } := by
  simp only [lockOutput] at h
  split at h
  · exact (Option.some.inj h).symm
  · contradiction

theorem openFd_eq {fd : ℕ} (h : s.openFd fd = some t) :
    fd ∉ s.fds ∧ t = { s with fds := fd :: s.fds } := by
  simp only [openFd] at h
  split at h
  · contradiction
  · next hfd => exact ⟨hfd, (Option.some.inj h).symm⟩

end State

/-! ### Workers -/

/-- The moves of worker `i`, with what they do to the rest of the state. -/
inductive WorkerMove (size : ℕ) (s : State) (i : ℕ) : WorkerPc → WorkerPc → State → Prop where
  | enter {pc : WorkerPc} : pc = .lock ∨ pc = .woken → s.bufferMutex = none →
    WorkerMove size s i pc .test { s with bufferMutex := some (.worker i) }
  | wait : s.buffer.inp = s.buffer.out → s.done = false → WorkerMove size s i .test .wait s
  | sleep : WorkerMove size s i .wait .asleep s.unlockBuffer
  | pass : s.done = true ∨ s.buffer.inp ≠ s.buffer.out → WorkerMove size s i .test .exitTest s
  | finish : s.done = true → s.buffer.inp = s.buffer.out →
    WorkerMove size s i .exitTest .exitUnlock s
  | proceed : ¬ (s.done = true ∧ s.buffer.inp = s.buffer.out) →
    WorkerMove size s i .exitTest .take s
  | take : WorkerMove size s i .take (.copy (s.buffer.slots s.buffer.out))
      { s with buffer := s.buffer.drop size }
  | copy (task : Task) : WorkerMove size s i (.copy task) (.read task)
      { s with handled := s.handled ++ [.copied task] }
  | copying {pc pc' : WorkerPc} (m : Option Thread) (stats : Statistics) (written : ℕ) :
    pc.holds = true → pc'.holds = true → pc.todo ≠ [] → pc'.todo = pc.todo →
    WorkerMove size s i pc pc' { s with outputMutex := m, stats := stats, written := written }
  | closeSrc (task : Task) : WorkerMove size s i (.closeSrc task) (.closeDest task)
      { s.closeFd task.srcFd with handled := s.handled ++ [.closed task.srcFd] }
  | closeDest (task : Task) : WorkerMove size s i (.closeDest task) .signal
      { s.closeFd task.destFd with handled := s.handled ++ [.closed task.destFd] }
  | signal {u : State} : s.WakesTraversal u → WorkerMove size s i .signal .unlock u
  | unlock : WorkerMove size s i .unlock .lock s.unlockBuffer
  | exitUnlock : WorkerMove size s i .exitUnlock .exitSignal s.unlockBuffer
  | exitSignal {u : State} : s.WakesTraversal u → WorkerMove size s i .exitSignal .exited u

namespace State
variable {size threads i : ℕ} {s t : State} {r : Reply} {pc : WorkerPc}

theorem workerAt_wakes {pc' : WorkerPc} (h : (s.workerAt i pc').WakesTraversal t) :
    ∃ u, s.WakesTraversal u ∧ t = u.workerAt i pc' := by
  cases h with
  | nobody => exact ⟨s, .nobody, rfl⟩
  | one hj hpc => exact ⟨_, .one hj hpc, rfl⟩

theorem work_move (h : s.work size i pc r = some t) :
    ∃ pc' u, WorkerMove size s i pc pc' u ∧ t = u.workerAt i pc' := by
  unfold work at h
  split at h
  · obtain ⟨hm, rfl⟩ := lockBuffer_eq h
    exact ⟨.test, _, .enter (.inl rfl) hm, rfl⟩
  · obtain ⟨hm, rfl⟩ := lockBuffer_eq h
    exact ⟨.test, _, .enter (.inr rfl) hm, rfl⟩
  · split at h
    · next hempty => exact ⟨.wait, s, .wait hempty.1 hempty.2, (Option.some.inj h).symm⟩
    · next hpass =>
      refine ⟨.exitTest, s, .pass ?_, (Option.some.inj h).symm⟩
      by_cases hd : s.done = true
      · exact .inl hd
      · exact .inr fun he => hpass ⟨he, by simpa using hd⟩
  · exact ⟨.asleep, _, .sleep, (Option.some.inj h).symm⟩
  · split at h
    · next hend => exact ⟨.exitUnlock, s, .finish hend.1 hend.2, (Option.some.inj h).symm⟩
    · next hgo => exact ⟨.take, s, .proceed hgo, (Option.some.inj h).symm⟩
  · exact ⟨_, _, .take, (Option.some.inj h).symm⟩
  · next task => exact ⟨_, _, .copy task, (Option.some.inj h).symm⟩
  -- inside copy_fd the closings stay to be done
  · next task =>
    exact ⟨.closeSrc task, _, .copying s.outputMutex s.stats s.written rfl rfl nofun rfl,
      (Option.some.inj h).symm⟩
  · next task n =>
    split at h
    · exact ⟨.write task (n + 1), _, .copying s.outputMutex s.stats s.written rfl rfl nofun rfl,
        (Option.some.inj h).symm⟩
    · contradiction
  · next task =>
    exact ⟨.lockOutput task .failedRead, _,
      .copying s.outputMutex s.stats s.written rfl rfl nofun rfl, (Option.some.inj h).symm⟩
  · next task bytesRead n =>
    split at h
    · exact ⟨.lockOutput task (.bytes n), _,
        .copying s.outputMutex s.stats (s.written + n) rfl rfl nofun rfl, (Option.some.inj h).symm⟩
    · contradiction
  · next task _ =>
    exact ⟨.lockOutput task .failedWrite, _,
      .copying s.outputMutex s.stats s.written rfl rfl nofun rfl, (Option.some.inj h).symm⟩
  · next task o =>
    exact ⟨.inOutput task o, _, .copying (some (.worker i)) s.stats s.written rfl rfl nofun rfl,
      lockOutput_eq h⟩
  · next task o =>
    exact ⟨.unlockOutput task o, _,
      .copying s.outputMutex (s.stats.worker o) s.written rfl rfl nofun rfl,
      (Option.some.inj h).symm⟩
  · next task o =>
    refine ⟨o.after task, _, .copying none s.stats s.written rfl ?_ nofun ?_,
      (Option.some.inj h).symm⟩
    · cases o <;> rfl
    · cases o <;> rfl
  · next task => exact ⟨_, _, .closeSrc task, (Option.some.inj h).symm⟩
  · next task => exact ⟨_, _, .closeDest task, (Option.some.inj h).symm⟩
  · obtain ⟨u, hu, rfl⟩ := workerAt_wakes (signalNotFull_wakes h)
    exact ⟨_, u, .signal hu, rfl⟩
  · exact ⟨_, _, .unlock, (Option.some.inj h).symm⟩
  · exact ⟨_, _, .exitUnlock, (Option.some.inj h).symm⟩
  · obtain ⟨u, hu, rfl⟩ := workerAt_wakes (signalNotFull_wakes h)
    exact ⟨_, u, .exitSignal hu, rfl⟩
  · contradiction

end State

/-! ### The traversal -/

structure TraversalPc.Local (pc pc' : TraversalPc) : Prop where
  outside : pc.holds = false
  outside' : pc'.holds = false
  running : pc ≠ .exited
  alone : pc.isJoin = false
  alone' : pc'.isJoin = false
  fds : pc'.fds = pc.fds
  up : pc'.isAsleep = false

inductive TraversalMove (size : ℕ) (s : State) (i : ℕ) (th : Traversal) :
    TraversalPc → TraversalPc → State → Prop where
  | step {pc pc' : TraversalPc} (m : Option Thread) (stats : Statistics) : pc.Local pc' →
    TraversalMove size s i th pc pc' { s with outputMutex := m, stats := stats }
  | create : TraversalMove size s i th .create (.join s.traversals.length)
      { s with traversals := s.traversals ++ [.start (.srcPath i) (.destSubdir i)] }
  | joined {j : ℕ} {child : Traversal} : s.traversals[j]? = some child → child.pc = .exited →
    TraversalMove size s i th (.join j) (.lockOutput .directory) s
  | openSrc (name : Bytes) {fd : ℕ} : fd ∉ s.fds →
    TraversalMove size s i th (.openSrc name) (.openDest name fd) { s with fds := fd :: s.fds }
  | openDest (name : Bytes) (srcFd : ℕ) {fd : ℕ} : fd ∉ s.fds →
    TraversalMove size s i th (.openDest name srcFd) (.insert ⟨name, srcFd, fd⟩)
      { s with fds := fd :: s.fds }
  | closeSrc (srcFd : ℕ) :
    TraversalMove size s i th (.closeSrc srcFd) .readdir (s.closeFd srcFd)
  | enter {pc : TraversalPc} (file : OpenFile) : pc = .lockBuffer file ∨ pc = .woken file →
    s.bufferMutex = none →
    TraversalMove size s i th pc (.testFull file) { s with bufferMutex := some (.traversal i) }
  | wait (file : OpenFile) : (s.buffer.inp + 1) % size = s.buffer.out →
    TraversalMove size s i th (.testFull file) (.wait file) s
  | sleep (file : OpenFile) :
    TraversalMove size s i th (.wait file) (.asleep file) s.unlockBuffer
  | pass (file : OpenFile) : (s.buffer.inp + 1) % size ≠ s.buffer.out →
    TraversalMove size s i th (.testFull file) (.add file) s
  | add (file : OpenFile) : TraversalMove size s i th (.add file) .signal
      { s with
        buffer := s.buffer.put size ⟨file.srcFd, file.destFd, .destPath i⟩
        added := s.added ++
          [⟨⟨file.srcFd, file.destFd, .destPath i⟩, file.name, th.srcPath, th.destPath⟩] }
  | signal {u : State} : s.WakesWorker u → TraversalMove size s i th .signal .unlock u
  | unlock : TraversalMove size s i th .unlock (.lockOutput .regularFile) s.unlockBuffer

namespace State
variable {size threads i : ℕ} {s t : State} {r : Reply} {th th' : Traversal} {pc : TraversalPc}

def traversalAt (s : State) (i : ℕ) (th : Traversal) : State :=
  { s with traversals := s.traversals.set i th }

theorem traversalAt_wakes (h : (s.traversalAt i th').WakesWorker t) :
    ∃ u, s.WakesWorker u ∧ t = u.traversalAt i th' := by
  cases h with
  | nobody => exact ⟨s, .nobody, rfl⟩
  | one hj => exact ⟨_, .one hj, rfl⟩

/-- A thread goes on by itself, and its record may have changed but for the pointers. -/
theorem goto_step {pc' : TraversalPc} (m : Option Thread) (stats : Statistics)
    (h : some ({ s.goto i th' pc' with outputMutex := m, stats := stats } : State) = some t)
    (hl : pc.Local pc') (hsrc : th'.sourceDir = th.sourceDir) (hdest : th'.destDir = th.destDir) :
    ∃ th' u, th'.sourceDir = th.sourceDir ∧ th'.destDir = th.destDir ∧
      TraversalMove size s i th pc th'.pc u ∧ t = u.traversalAt i th' :=
  ⟨{ th' with pc := pc' }, _, hsrc, hdest, .step m stats hl, (Option.some.inj h).symm⟩

theorem goto_local {pc' : TraversalPc} (h : some (s.goto i th pc') = some t) (hl : pc.Local pc') :
    ∃ th' u, th'.sourceDir = th.sourceDir ∧ th'.destDir = th.destDir ∧
      TraversalMove size s i th pc th'.pc u ∧ t = u.traversalAt i th' :=
  goto_step s.outputMutex s.stats h hl rfl rfl

theorem traverse_move (hth : s.traversals[i]? = some th)
    (h : s.traverse size i th pc r = some t) (hpc : th.pc = pc) :
    ∃ th' u, th'.sourceDir = th.sourceDir ∧ th'.destDir = th.destDir ∧
      TraversalMove size s i th pc th'.pc u ∧ t = u.traversalAt i th' := by
  have hi := (List.getElem?_eq_some_iff.mp hth).1
  unfold traverse at h
  split at h
  -- opendir and readdir
  · exact goto_local h ⟨rfl, rfl, nofun, rfl, rfl, rfl, rfl⟩
  · exact goto_local h ⟨rfl, rfl, nofun, rfl, rfl, rfl, rfl⟩
  · exact goto_local h ⟨rfl, rfl, nofun, rfl, rfl, rfl, rfl⟩
  · split at h
    · refine ⟨th, s, rfl, rfl, ?_, ?_⟩
      · rw [hpc]
        exact .step s.outputMutex s.stats ⟨rfl, rfl, nofun, rfl, rfl, rfl, rfl⟩
      · cases h
        obtain ⟨hi, heq⟩ := List.getElem?_eq_some_iff.mp hth
        simp only [traversalAt, ← heq, List.set_getElem_self]
    · exact goto_step s.outputMutex s.stats h ⟨rfl, rfl, nofun, rfl, rfl, rfl, rfl⟩ rfl rfl
  -- stat
  · exact goto_local h ⟨rfl, rfl, nofun, rfl, rfl, rfl, rfl⟩
  · exact goto_step s.outputMutex s.stats h ⟨rfl, rfl, nofun, rfl, rfl, rfl, rfl⟩ rfl rfl
  · exact goto_local h ⟨rfl, rfl, nofun, rfl, rfl, rfl, rfl⟩
  · exact goto_local h ⟨rfl, rfl, nofun, rfl, rfl, rfl, rfl⟩
  · exact goto_local h ⟨rfl, rfl, nofun, rfl, rfl, rfl, rfl⟩
  -- a directory
  · exact goto_local h ⟨rfl, rfl, nofun, rfl, rfl, rfl, rfl⟩
  · exact goto_local h ⟨rfl, rfl, nofun, rfl, rfl, rfl, rfl⟩
  · refine ⟨{ th with pc := .join s.traversals.length }, _, rfl, rfl, .create, ?_⟩
    cases h
    simp only [goto, traversalAt]
    rw [List.set_append_left _ _ hi]
  · exact goto_local h ⟨rfl, rfl, nofun, rfl, rfl, rfl, rfl⟩
  · next j =>
    split at h
    · next hj =>
      obtain ⟨child, hchild, hexit⟩ := Option.map_eq_some_iff.mp hj
      exact ⟨{ th with pc := .lockOutput .directory }, s, rfl, rfl, .joined hchild hexit,
        (Option.some.inj h).symm⟩
    · contradiction
  -- a regular file
  · next name fd =>
    obtain ⟨hfd, rfl⟩ := openFd_eq h
    exact ⟨{ th with pc := .openDest name fd }, _, rfl, rfl, .openSrc name hfd, rfl⟩
  · exact goto_local h ⟨rfl, rfl, nofun, rfl, rfl, rfl, rfl⟩
  · next name srcFd fd =>
    obtain ⟨hfd, rfl⟩ := openFd_eq h
    exact ⟨{ th with pc := .insert ⟨name, srcFd, fd⟩ }, _, rfl, rfl, .openDest name srcFd hfd, rfl⟩
  · exact goto_local h ⟨rfl, rfl, nofun, rfl, rfl, rfl, rfl⟩
  · next srcFd =>
    exact ⟨{ th with pc := .readdir }, _, rfl, rfl, .closeSrc srcFd, (Option.some.inj h).symm⟩
  · next file =>
    exact goto_step s.outputMutex (s.stats.insert (fileExtension file.name)) h
      ⟨rfl, rfl, nofun, rfl, rfl, rfl, rfl⟩ rfl rfl
  -- add_task_to_buffer
  · next file =>
    obtain ⟨hm, rfl⟩ := lockBuffer_eq h
    exact ⟨{ th with pc := .testFull file }, _, rfl, rfl, .enter file (.inl rfl) hm, rfl⟩
  · next file =>
    obtain ⟨hm, rfl⟩ := lockBuffer_eq h
    exact ⟨{ th with pc := .testFull file }, _, rfl, rfl, .enter file (.inr rfl) hm, rfl⟩
  · next file =>
    split at h
    · next hfull =>
      exact ⟨{ th with pc := .wait file }, s, rfl, rfl, .wait file hfull, (Option.some.inj h).symm⟩
    · next hroom =>
      exact ⟨{ th with pc := .add file }, s, rfl, rfl, .pass file hroom, (Option.some.inj h).symm⟩
  · next file =>
    exact ⟨{ th with pc := .asleep file }, _, rfl, rfl, .sleep file, (Option.some.inj h).symm⟩
  · next file =>
    exact ⟨{ th with pc := .signal }, _, rfl, rfl, .add file, (Option.some.inj h).symm⟩
  · obtain ⟨u, hu, rfl⟩ := traversalAt_wakes (signalNotEmpty_wakes h)
    exact ⟨{ th with pc := .unlock }, u, rfl, rfl, .signal hu, rfl⟩
  · exact ⟨{ th with pc := .lockOutput .regularFile }, _, rfl, rfl, .unlock,
      (Option.some.inj h).symm⟩
  -- a FIFO
  · exact goto_local h ⟨rfl, rfl, nofun, rfl, rfl, rfl, rfl⟩
  · exact goto_local h ⟨rfl, rfl, nofun, rfl, rfl, rfl, rfl⟩
  · exact goto_local h ⟨rfl, rfl, nofun, rfl, rfl, rfl, rfl⟩
  · exact goto_local h ⟨rfl, rfl, nofun, rfl, rfl, rfl, rfl⟩
  · exact goto_local h ⟨rfl, rfl, nofun, rfl, rfl, rfl, rfl⟩
  · exact goto_local h ⟨rfl, rfl, nofun, rfl, rfl, rfl, rfl⟩
  -- under output_mutex
  · next o =>
    refine goto_step (some (.traversal i)) s.stats (congrArg some (lockOutput_eq h).symm)
      ⟨rfl, rfl, nofun, rfl, rfl, ?_, rfl⟩ rfl rfl
    cases o <;> rfl
  · next o =>
    refine goto_step s.outputMutex (s.stats.traversal o) h ⟨rfl, rfl, nofun, rfl, rfl, ?_, rfl⟩ rfl
      rfl
    cases o <;> rfl
  · next o =>
    refine goto_step none s.stats h ⟨rfl, ?_, nofun, rfl, ?_, ?_, ?_⟩ rfl rfl
    all_goals cases o <;> rfl
  · contradiction

end State

/-! ### `main` and the whole program -/

inductive MainMove (threads : ℕ) (s : State) : MainPc → MainPc → State → Prop where
  | createRoot : MainMove threads s .createRoot .createWorkers
      { s with traversals := [.start .mainSource .mainDest] }
  | giveUp {pc : MainPc} : pc = .createRoot ∨ pc = .createWorkers →
    MainMove threads s pc .returned s
  | createWorker : s.workers.length < threads →
    MainMove threads s .createWorkers .createWorkers { s with workers := s.workers ++ [.lock] }
  | created : threads ≤ s.workers.length → MainMove threads s .createWorkers .joinRoot s
  | joinRoot {root : Traversal} : s.traversals[0]? = some root → root.pc = .exited →
    MainMove threads s .joinRoot .lockOutput s
  | lockOutput : MainMove threads s .lockOutput .setDone { s with outputMutex := some .main }
  | setDone : MainMove threads s .setDone .unlockOutput { s with done := true }
  | unlockOutput : MainMove threads s .unlockOutput .broadcast s.unlockOutput
  | broadcast : MainMove threads s .broadcast (.joinWorker 0)
      { s with workers := s.workers.map WorkerPc.wake }
  | joinWorker (i : ℕ) : i < threads → s.workers[i]? = some .exited →
    MainMove threads s (.joinWorker i) (.joinWorker (i + 1)) s
  | joinedAll (i : ℕ) : threads ≤ i → MainMove threads s (.joinWorker i) .report s
  | report : MainMove threads s .report .returned s

namespace State
variable {size threads i : ℕ} {s t : State} {r : Reply} {a : Action}

def mainAt (s : State) (pc : MainPc) : State := { s with main := pc }

theorem main_move {pc : MainPc} (h : s.mainStep threads pc r = some t) :
    ∃ pc' u, MainMove threads s pc pc' u ∧ t = u.mainAt pc' := by
  unfold mainStep at h
  split at h
  · exact ⟨_, _, .createRoot, (Option.some.inj h).symm⟩
  · exact ⟨_, s, .giveUp (.inl rfl), (Option.some.inj h).symm⟩
  · split at h
    · next hlt =>
      split at h
      · exact ⟨.createWorkers, _, .createWorker hlt, (Option.some.inj h).symm⟩
      · exact ⟨_, s, .giveUp (.inr rfl), (Option.some.inj h).symm⟩
      · contradiction
    · next hge => exact ⟨_, s, .created (Nat.le_of_not_lt hge), (Option.some.inj h).symm⟩
  · split at h
    · next hroot =>
      obtain ⟨root, hroot, hexit⟩ := Option.map_eq_some_iff.mp hroot
      exact ⟨_, s, .joinRoot hroot hexit, (Option.some.inj h).symm⟩
    · contradiction
  · obtain rfl := lockOutput_eq h
    exact ⟨_, _, .lockOutput, rfl⟩
  · exact ⟨_, _, .setDone, (Option.some.inj h).symm⟩
  · exact ⟨_, _, .unlockOutput, (Option.some.inj h).symm⟩
  · exact ⟨_, _, .broadcast, (Option.some.inj h).symm⟩
  · next i =>
    split at h
    · next hlt =>
      split at h
      · next hexit => exact ⟨_, s, .joinWorker i hlt hexit, (Option.some.inj h).symm⟩
      · contradiction
    · next hge => exact ⟨_, s, .joinedAll i (Nat.le_of_not_lt hge), (Option.some.inj h).symm⟩
  · exact ⟨_, s, .report, (Option.some.inj h).symm⟩
  · contradiction

end State

/-- A step with the statement that is executed. -/
inductive Acts (size threads : ℕ) (s : State) : Action → State → Prop where
  | main {r : Reply} {mpc' : MainPc} {u : State} : MainMove threads s s.main mpc' u →
    Acts size threads s (.main r) (u.mainAt mpc')
  | traverse {i : ℕ} {th : Traversal} {r : Reply} {t : State} : s.traversals[i]? = some th →
    s.traverse size i th th.pc r = some t → Acts size threads s (.traverse i r) t
  | work {i : ℕ} {pc : WorkerPc} {r : Reply} {t : State} : s.workers[i]? = some pc →
    s.work size i pc r = some t → Acts size threads s (.work i r) t
  | spuriousTraversal {i : ℕ} {t : State} : s.WakesTraversal t →
    Acts size threads s (.spurious (.traversal i)) t
  | spuriousWorker {i : ℕ} {t : State} : s.WakesWorker t →
    Acts size threads s (.spurious (.worker i)) t

theorem copier_acts {size threads : ℕ} {s t : State} {a : Action}
    (h : (copier size threads).next s a = some t) : Acts size threads s a t := by
  simp only [copier, State.next] at h
  split at h
  · contradiction
  cases a with
  | main r =>
    obtain ⟨mpc', u, hmove, rfl⟩ := State.main_move h
    exact .main hmove
  | traverse i r =>
    obtain ⟨th, hth, h⟩ := Option.bind_eq_some_iff.mp h
    exact .traverse hth h
  | work i r =>
    obtain ⟨pc, hpc, h⟩ := Option.bind_eq_some_iff.mp h
    exact .work hpc h
  | spurious thread =>
    cases thread with
    | main => contradiction
    | traversal i => exact .spuriousTraversal (State.wakeTraversal_wakes h)
    | worker i => exact .spuriousWorker (State.wakeWorker_wakes h)

inductive Step (size threads : ℕ) (s : State) : State → Prop where
  | main {pc' : MainPc} {u : State} : MainMove threads s s.main pc' u →
    Step size threads s (u.mainAt pc')
  | traverse {i : ℕ} {th th' : Traversal} {u : State} : s.traversals[i]? = some th →
    th'.sourceDir = th.sourceDir → th'.destDir = th.destDir →
    TraversalMove size s i th th.pc th'.pc u → Step size threads s (u.traversalAt i th')
  | work {i : ℕ} {pc pc' : WorkerPc} {u : State} : s.workers[i]? = some pc →
    WorkerMove size s i pc pc' u → Step size threads s (u.workerAt i pc')
  | spuriousTraversal {t : State} : s.WakesTraversal t → Step size threads s t
  | spuriousWorker {t : State} : s.WakesWorker t → Step size threads s t

theorem copier_step {size threads : ℕ} {s t : State} {a : Action}
    (h : (copier size threads).next s a = some t) : Step size threads s t := by
  cases copier_acts h with
  | main hmove => exact .main hmove
  | traverse hth h =>
    obtain ⟨th', u, hsrc, hdest, hmove, rfl⟩ := State.traverse_move hth h rfl
    exact .traverse hth hsrc hdest hmove
  | work hpc h =>
    obtain ⟨pc', u, hmove, rfl⟩ := State.work_move h
    exact .work hpc hmove
  | spuriousTraversal hu => exact .spuriousTraversal hu
  | spuriousWorker hu => exact .spuriousWorker hu

end AdvancedCProjects.Copier
