import AdvancedCProjects.Copier.Moves

/-!
# What the steps do to tasks, paths and statistics

A move says how far a thread has come. Here it is said what happens meanwhile to
the task that a worker copies, to the path buffer of a thread of the traversal and
to the statistics, one case for each kind of change.
-/

namespace AdvancedCProjects.Copier
open Base

/-! ### Workers -/

/-- The task that `copy_fd` is called for. -/
def WorkerPc.copying : WorkerPc → Option Task
  | .copy task | .read task | .write task _ | .lockOutput task _ | .inOutput task _
  | .unlockOutput task _ => some task
  | _ => none

/-- What `write` has reported and the statistics do not have. -/
def WorkerPc.uncounted : WorkerPc → ℕ
  | .lockOutput _ (.bytes n) | .inOutput _ (.bytes n) => n
  | _ => 0

/-- A worker goes on, and the statistics and what was written are as given. -/
inductive CopyStep (s : State) : WorkerPc → WorkerPc → Statistics → ℕ → Prop where
  | onward {pc pc' : WorkerPc} : pc'.copying = none ∨ pc'.copying = pc.copying →
    pc'.uncounted = pc.uncounted → CopyStep s pc pc' s.stats s.written
  | take : CopyStep s .take (.copy (s.buffer.slots s.buffer.out)) s.stats s.written
  | write (task : Task) (bytesRead bytesWritten : ℕ) :
    CopyStep s (.write task bytesRead) (.lockOutput task (.bytes bytesWritten)) s.stats
      (s.written + bytesWritten)
  | count (task : Task) (n : ℕ) : CopyStep s (.inOutput task (.bytes n))
      (.unlockOutput task (.bytes n)) (s.stats.worker (.bytes n)) s.written

namespace State
variable {size i : ℕ} {s t u : State} {r : Reply} {pc pc' : WorkerPc}

theorem WakesTraversal.others (h : s.WakesTraversal u) : u.workers = s.workers ∧
    u.stats = s.stats ∧ u.written = s.written := by
  cases h <;> exact ⟨rfl, rfl, rfl⟩

theorem copyStep_onward (h : some (s.workerAt i pc') = some t)
    (hcopying : pc'.copying = none ∨ pc'.copying = pc.copying)
    (huncounted : pc'.uncounted = pc.uncounted) :
    ∃ pc', t.workers = s.workers.set i pc' ∧ CopyStep s pc pc' t.stats t.written := by
  cases h
  exact ⟨pc', rfl, .onward hcopying huncounted⟩

theorem copyStep_wakes (h : (s.workerAt i pc').signalNotFull r = some t)
    (hcopying : pc'.copying = none) (huncounted : pc'.uncounted = pc.uncounted) :
    ∃ pc', t.workers = s.workers.set i pc' ∧ CopyStep s pc pc' t.stats t.written := by
  obtain ⟨hworkers, hstats, hwritten⟩ := (signalNotFull_wakes h).others
  rw [hstats, hwritten]
  exact ⟨pc', hworkers, .onward (.inl hcopying) huncounted⟩

theorem work_copyStep (h : s.work size i pc r = some t) :
    ∃ pc', t.workers = s.workers.set i pc' ∧ CopyStep s pc pc' t.stats t.written := by
  unfold work at h
  split at h
  -- up to the task
  · obtain ⟨-, rfl⟩ := lockBuffer_eq h
    exact ⟨.test, rfl, .onward (.inl rfl) rfl⟩
  · obtain ⟨-, rfl⟩ := lockBuffer_eq h
    exact ⟨.test, rfl, .onward (.inl rfl) rfl⟩
  · split at h
    · exact copyStep_onward h (.inl rfl) rfl
    · exact copyStep_onward h (.inl rfl) rfl
  · cases h
    exact ⟨.asleep, rfl, .onward (.inl rfl) rfl⟩
  · split at h
    · exact copyStep_onward h (.inl rfl) rfl
    · exact copyStep_onward h (.inl rfl) rfl
  · cases h
    exact ⟨_, rfl, .take⟩
  -- copy_fd
  · next task =>
    cases h
    exact ⟨.read task, rfl, .onward (.inr rfl) rfl⟩
  · exact copyStep_onward h (.inl rfl) rfl
  · split at h
    · exact copyStep_onward h (.inr rfl) rfl
    · contradiction
  · exact copyStep_onward h (.inr rfl) rfl
  · next task bytesRead n =>
    split at h
    · cases h
      exact ⟨_, rfl, .write task bytesRead n⟩
    · contradiction
  · exact copyStep_onward h (.inr rfl) rfl
  · next task o =>
    obtain rfl := lockOutput_eq h
    refine ⟨.inOutput task o, rfl, .onward (.inr rfl) ?_⟩
    cases o <;> rfl
  · next task o =>
    cases h
    cases o with
    | bytes n => exact ⟨_, rfl, .count task n⟩
    | failedWrite => exact ⟨.unlockOutput task .failedWrite, rfl, .onward (.inr rfl) rfl⟩
    | failedRead => exact ⟨.unlockOutput task .failedRead, rfl, .onward (.inr rfl) rfl⟩
  · next task o =>
    cases h
    refine ⟨o.after task, rfl, .onward ?_ ?_⟩
    · cases o with
      | bytes n => exact .inr rfl
      | failedWrite | failedRead => exact .inl rfl
    · cases o <;> rfl
  -- behind it
  · next task =>
    cases h
    exact ⟨.closeDest task, rfl, .onward (.inl rfl) rfl⟩
  · cases h
    exact ⟨.signal, rfl, .onward (.inl rfl) rfl⟩
  · exact copyStep_wakes h rfl rfl
  · cases h
    exact ⟨.lock, rfl, .onward (.inl rfl) rfl⟩
  · cases h
    exact ⟨.exitSignal, rfl, .onward (.inl rfl) rfl⟩
  · exact copyStep_wakes h rfl rfl
  · contradiction

end State

/-! ### The traversal -/

/-- The file of a task that is not in the buffer yet, with both descriptors. -/
def TraversalPc.file? : TraversalPc → Option OpenFile
  | .insert file | .lockBuffer file | .testFull file | .wait file | .asleep file | .woken file
  | .add file => some file
  | _ => none

/-- The key that is counted for a file that is not in the buffer yet. -/
def TraversalPc.keys : TraversalPc → List Bytes
  | .lockBuffer file | .testFull file | .wait file | .asleep file | .woken file | .add file =>
    [fileExtension file.name]
  | _ => []

/-- The thread has its directory open. -/
def TraversalPc.reading : TraversalPc → Bool
  | .opendir | .lockOutput .failedOpendir | .inOutput .failedOpendir
  | .unlockOutput .failedOpendir | .exited => false
  | _ => true

/-- The step leaves the statistics and the tasks alone. -/
structure State.SameTasks (s t : State) : Prop where
  stats : t.stats = s.stats
  buffer : t.buffer = s.buffer
  added : t.added = s.added

/-- Thread `i` goes on to `th'`, on a reply. -/
inductive EntryStep (size : ℕ) (s : State) (i : ℕ) (th : Traversal) :
    TraversalPc → Reply → Traversal → State → Prop where
  | onward {pc : TraversalPc} {r : Reply} {th' : Traversal} {t : State} :
    th'.destPath = th.destPath → th'.pc.file? = pc.file? → th'.pc.keys = pc.keys →
    (pc.reading = true → th'.pc.reading = true) → s.SameTasks t →
    EntryStep size s i th pc r th' t
  | entry {name : Bytes} {t : State} : ¬ (name = utf8 "." ∨ name = utf8 "..") → s.SameTasks t →
    EntryStep size s i th .readdir (.entry name)
      { th with
        srcPath := snprintf (s.read th.sourceDir) name
        destPath := snprintf (s.read th.destDir) name
        pc := .stat name } t
  | finished {t : State} : s.SameTasks t →
    EntryStep size s i th .readdir .failure { th with pc := .exited } t
  | openDest {name : Bytes} {srcFd fd : ℕ} {t : State} : s.SameTasks t →
    EntryStep size s i th (.openDest name srcFd) (.fd fd)
      { th with pc := .insert ⟨name, srcFd, fd⟩ } t
  | insert {file : OpenFile} {r : Reply} {t : State} :
    t.stats = s.stats.insert (fileExtension file.name) → t.buffer = s.buffer → t.added = s.added →
    EntryStep size s i th (.insert file) r { th with pc := .lockBuffer file } t
  | add {file : OpenFile} {r : Reply} {t : State} : t.stats = s.stats →
    t.buffer = s.buffer.put size ⟨file.srcFd, file.destFd, .destPath i⟩ →
    t.added = s.added ++
      [⟨⟨file.srcFd, file.destFd, .destPath i⟩, file.name, th.srcPath, th.destPath⟩] →
    EntryStep size s i th (.add file) r { th with pc := .signal } t
  | count {o : TraversalOutput} {r : Reply} {t : State} : t.stats = s.stats.traversal o →
    t.buffer = s.buffer → t.added = s.added →
    EntryStep size s i th (.inOutput o) r { th with pc := .unlockOutput o } t

/-- Thread `i` goes on, and a thread that it creates is behind the others. -/
def EntryMoved (size : ℕ) (s : State) (i : ℕ) (th : Traversal) (pc : TraversalPc) (r : Reply)
    (t : State) : Prop :=
  ∃ th' created, t.traversals = s.traversals.set i th' ++ created ∧
    (∀ child ∈ created, child.pc = .opendir) ∧ EntryStep size s i th pc r th' t

section Traverse
variable {size i : ℕ} {s t u : State} {r : Reply} {th th' : Traversal} {pc pc' : TraversalPc}

theorem EntryMoved.one (ht : t.traversals = s.traversals.set i th')
    (h : EntryStep size s i th pc r th' t) : EntryMoved size s i th pc r t :=
  ⟨th', [], by rw [ht, List.append_nil], fun _ hmem => absurd hmem List.not_mem_nil, h⟩

theorem EntryMoved.onward (ht : t.traversals = (s.goto i th pc').traversals)
    (hsame : s.SameTasks t) (hfile : pc'.file? = pc.file?) (hkeys : pc'.keys = pc.keys)
    (hreading : pc.reading = true → pc'.reading = true) : EntryMoved size s i th pc r t :=
  .one ht (.onward rfl hfile hkeys hreading hsame)

theorem EntryMoved.goto (h : some (s.goto i th pc') = some t) (hfile : pc'.file? = pc.file?)
    (hkeys : pc'.keys = pc.keys) (hreading : pc.reading = true → pc'.reading = true) :
    EntryMoved size s i th pc r t := by
  cases h
  exact .onward rfl ⟨rfl, rfl, rfl⟩ hfile hkeys hreading

theorem State.WakesWorker.others (h : s.WakesWorker u) :
    u.traversals = s.traversals ∧ s.SameTasks u := by
  cases h <;> exact ⟨rfl, rfl, rfl, rfl⟩

theorem State.traverse_moved (hth : s.traversals[i]? = some th)
    (h : s.traverse size i th pc r = some t) (hpc : th.pc = pc) :
    EntryMoved size s i th pc r t := by
  unfold traverse at h
  split at h
  -- opendir and readdir
  · exact .goto h rfl rfl fun _ => rfl
  · exact .goto h rfl rfl id
  · cases h
    exact .one rfl (.finished ⟨rfl, rfl, rfl⟩)
  · next name =>
    split at h
    · cases h
      have hset : s.traversals = s.traversals.set i th := by
        obtain ⟨hi, heq⟩ := List.getElem?_eq_some_iff.mp hth
        rw [← heq, List.set_getElem_self]
      refine .one hset (.onward rfl ?_ ?_ ?_ ⟨rfl, rfl, rfl⟩)
      all_goals simp [hpc]
    · next hname =>
      cases h
      exact .one rfl (.entry hname ⟨rfl, rfl, rfl⟩)
  -- stat
  · exact .goto h rfl rfl id
  · cases h
    exact .one rfl (.onward rfl rfl rfl id ⟨rfl, rfl, rfl⟩)
  · exact .goto h rfl rfl id
  · exact .goto h rfl rfl id
  · exact .goto h rfl rfl id
  -- a directory
  · exact .goto h rfl rfl id
  · exact .goto h rfl rfl id
  · cases h
    refine ⟨{ th with pc := .join s.traversals.length }, [.start (.srcPath i) (.destSubdir i)],
      rfl, ?_, .onward rfl rfl rfl id ⟨rfl, rfl, rfl⟩⟩
    intro child hchild
    rw [List.mem_singleton.mp hchild]
    rfl
  · exact .goto h rfl rfl id
  · split at h
    · exact .goto h rfl rfl id
    · contradiction
  -- a regular file
  · obtain ⟨-, rfl⟩ := openFd_eq h
    exact .onward rfl ⟨rfl, rfl, rfl⟩ rfl rfl id
  · exact .goto h rfl rfl id
  · obtain ⟨-, rfl⟩ := openFd_eq h
    exact .one rfl (.openDest ⟨rfl, rfl, rfl⟩)
  · exact .goto h rfl rfl id
  · cases h
    exact .onward rfl ⟨rfl, rfl, rfl⟩ rfl rfl id
  · cases h
    exact .one rfl (.insert rfl rfl rfl)
  -- add_task_to_buffer
  · obtain ⟨-, rfl⟩ := lockBuffer_eq h
    exact .onward rfl ⟨rfl, rfl, rfl⟩ rfl rfl id
  · obtain ⟨-, rfl⟩ := lockBuffer_eq h
    exact .onward rfl ⟨rfl, rfl, rfl⟩ rfl rfl id
  · split at h
    · exact .goto h rfl rfl id
    · exact .goto h rfl rfl id
  · cases h
    exact .onward rfl ⟨rfl, rfl, rfl⟩ rfl rfl id
  · cases h
    exact .one rfl (.add rfl rfl rfl)
  · obtain ⟨hts, hstats, hbuffer, hadded⟩ := (signalNotEmpty_wakes h).others
    exact .onward hts ⟨hstats, hbuffer, hadded⟩ rfl rfl id
  · cases h
    exact .onward rfl ⟨rfl, rfl, rfl⟩ rfl rfl id
  -- a FIFO
  · exact .goto h rfl rfl id
  · exact .goto h rfl rfl id
  · exact .goto h rfl rfl id
  · exact .goto h rfl rfl id
  · exact .goto h rfl rfl id
  · exact .goto h rfl rfl id
  -- under output_mutex
  · next o =>
    obtain rfl := lockOutput_eq h
    refine .onward rfl ⟨rfl, rfl, rfl⟩ rfl rfl ?_
    cases o <;> exact id
  · cases h
    exact .one rfl (.count rfl rfl rfl)
  · next o =>
    cases h
    refine .onward rfl ⟨rfl, rfl, rfl⟩ ?_ ?_ ?_
    all_goals cases o <;> first | rfl | exact id
  · contradiction

end Traverse

end AdvancedCProjects.Copier
