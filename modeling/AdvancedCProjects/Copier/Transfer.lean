import AdvancedCProjects.Base.File
import AdvancedCProjects.Copier.Progress
import AdvancedCProjects.Copier.Walk

/-!
# The bytes of a file (program.c:266-329, 382-436)

Between two rounds of `copy_fd` the destination has what has been read of the source;
from a `read` to the `write` the rest is in the buffer of the worker. The descriptors
of a task are told apart from those of another by the files that they stand for.
-/

namespace AdvancedCProjects.Copier
open Base

/-! ### Workers -/

def WorkerOutput.fine : WorkerOutput → Bool
  | .bytes _ => true
  | .failedWrite | .failedRead => false

/-- No `read` or `write` has failed for the task in hand. -/
def WorkerPc.fine : WorkerPc → Bool
  | .lockOutput _ o | .inOutput _ o | .unlockOutput _ o => o.fine
  | _ => true

/-- The task that there are bytes in the buffer for, with their number. -/
def WorkerPc.unwritten : WorkerPc → Option (Task × ℕ)
  | .write task bytesRead => some (task, bytesRead)
  | _ => none

/-- Worker `i` goes on, and the world answers. -/
inductive WorkStep (source : Source) (s : State) (w : World) (i : ℕ) :
    WorkerPc → WorkerPc → World → Prop where
  | onward {pc pc' : WorkerPc} : pc.unwritten = none → pc'.unwritten = none →
    pc'.copying = pc.copying → WorkStep source s w i pc pc' w
  | take : WorkStep source s w i .take (.copy (s.buffer.slots s.buffer.out)) w
  | read {task : Task} {n offset : ℕ} {path content : Bytes} :
    w.files task.srcFd = some (.source path offset) → source.content path = some content →
    offset + n ≤ content.length →
    WorkStep source s w i (.read task) (.write task n)
      { w.openAs task.srcFd (some (.source path (offset + n))) with
        bufs := Function.update w.bufs i ((content.drop offset).take n) }
  | ended {task : Task} {offset : ℕ} {path content : Bytes} :
    w.files task.srcFd = some (.source path offset) → source.content path = some content →
    content.length ≤ offset → WorkStep source s w i (.read task) (.closeSrc task) w
  | write {task : Task} {n offset : ℕ} {path data : Bytes} :
    w.files task.destFd = some (.dest path offset) → w.dest path = some (.regular data) →
    WorkStep source s w i (.write task n) (.lockOutput task (.bytes n))
      ((w.put path (some (.regular (writeAt data offset ((w.bufs i).take n))))).openAs
        task.destFd (some (.dest path (offset + n))))
  | closeSrc (task : Task) : WorkStep source s w i (.closeSrc task) (.closeDest task)
      (w.openAs task.srcFd none)
  | closeDest (task : Task) : WorkStep source s w i (.closeDest task) .signal
      (w.openAs task.destFd none)

def WorkMoved (source : Source) (s : State) (w : World) (i : ℕ) (pc : WorkerPc) (t : State)
    (w' : World) : Prop :=
  ∃ pc', t.workers = s.workers.set i pc' ∧ pc'.fine = true ∧ WorkStep source s w i pc pc' w'

section Workers
variable {source : Source} {size i : ℕ} {s t : State} {w w' : World} {pc pc' : WorkerPc}
  {r : Reply}

theorem WorkMoved.local (ht : t.workers = (s.workerAt i pc').workers) (hw : some w = some w')
    (hfine : pc'.fine = true) (hold : pc.unwritten = none) (hnew : pc'.unwritten = none)
    (hcopying : pc'.copying = pc.copying) : WorkMoved source s w i pc t w' := by
  cases hw
  exact ⟨pc', ht, hfine, .onward hold hnew hcopying⟩

theorem WorkMoved.goto (h : some (s.workerAt i pc') = some t) (hw : some w = some w')
    (hfine : pc'.fine = true) (hold : pc.unwritten = none) (hnew : pc'.unwritten = none)
    (hcopying : pc'.copying = pc.copying) : WorkMoved source s w i pc t w' := by
  cases h
  exact .local rfl hw hfine hold hnew hcopying

theorem World.work_signal (hpc : pc = .signal ∨ pc = .exitSignal)
    (h : w.work source i pc r = some w') : some w = some w' := by
  rcases hpc with rfl | rfl
  all_goals cases r <;> simp only [World.work, reduceCtorEq] at h <;> exact h

theorem work_step (h : s.work size i pc r = some t) (hw : w.work source i pc r = some w')
    (hfine : pc.fine = true) : WorkMoved source s w i pc t w' := by
  unfold State.work at h
  split at h
  -- up to the task
  · obtain ⟨-, rfl⟩ := State.lockBuffer_eq h
    exact .local rfl hw rfl rfl rfl rfl
  · obtain ⟨-, rfl⟩ := State.lockBuffer_eq h
    exact .local rfl hw rfl rfl rfl rfl
  · split at h
    · exact .goto h hw rfl rfl rfl rfl
    · exact .goto h hw rfl rfl rfl rfl
  · cases h
    exact .local rfl hw rfl rfl rfl rfl
  · split at h
    · exact .goto h hw rfl rfl rfl rfl
    · exact .goto h hw rfl rfl rfl rfl
  · cases h
    cases hw
    exact ⟨_, rfl, rfl, .take⟩
  -- copy_fd
  · cases h
    exact .local rfl hw rfl rfl rfl rfl
  · next task =>
    simp only [World.work] at hw
    split at hw
    · next path offset hfile =>
      obtain ⟨content, hcontent, hw⟩ := Option.bind_eq_some_iff.mp hw
      rw [if_pos trivial] at hw
      split at hw
      · next hend =>
        cases h
        cases hw
        exact ⟨_, rfl, rfl, .ended hfile hcontent hend⟩
      · contradiction
    · contradiction
  · next task n =>
    simp only [World.work] at hw
    split at hw
    · next path offset hfile =>
      obtain ⟨content, hcontent, hw⟩ := Option.bind_eq_some_iff.mp hw
      rw [if_neg (Nat.succ_ne_zero n)] at hw
      split at hw
      · next hroom =>
        cases hw
        split at h
        · cases h
          exact ⟨_, rfl, rfl, .read hfile hcontent hroom⟩
        · contradiction
      · contradiction
    · contradiction
  · contradiction
  · next task bytesRead n =>
    simp only [World.work] at hw
    split at hw
    · next path offset hfile =>
      split at hw
      · next data hdata =>
        split at hw
        · next heq =>
          subst heq
          cases hw
          rw [if_pos (Nat.le_refl n)] at h
          cases h
          exact ⟨_, rfl, rfl, .write hfile hdata⟩
        · contradiction
      · contradiction
    · contradiction
  · contradiction
  · obtain rfl := State.lockOutput_eq h
    exact .local rfl hw hfine rfl rfl rfl
  · cases h
    exact .local rfl hw hfine rfl rfl rfl
  · next task o =>
    cases h
    cases o with
    | bytes n => exact .local rfl hw rfl rfl rfl rfl
    | _ => contradiction
  -- behind it
  · next task =>
    cases h
    cases hw
    exact ⟨_, rfl, rfl, .closeSrc task⟩
  · next task =>
    cases h
    cases hw
    exact ⟨_, rfl, rfl, .closeDest task⟩
  · exact .local (State.signalNotFull_wakes h).others.1 (World.work_signal (.inl rfl) hw)
      rfl rfl rfl rfl
  · cases h
    exact .local rfl hw rfl rfl rfl rfl
  · cases h
    exact .local rfl hw rfl rfl rfl rfl
  · exact .local (State.signalNotFull_wakes h).others.1 (World.work_signal (.inr rfl) hw)
      rfl rfl rfl rfl
  · contradiction

end Workers

/-! ### Descriptors -/

section Descriptors
variable {size threads i : ℕ} {s t : State} {pc pc' : WorkerPc} {task : Task} {fd : ℕ} {r : Reply}

theorem Invariant.fds_count (hi : Invariant size s) (fd : ℕ) :
    s.fds.count fd = (closings (s.workers.flatMap WorkerPc.todo)).count fd +
      (closings ((s.buffer.contents size).flatMap Task.handling)).count fd +
      (s.traversals.flatMap fun th => th.pc.fds).count fd := by
  obtain ⟨pending, hholds, heq⟩ := hi.books.tallied
  have hfd := hi.descriptors fd
  rw [← heq, closings_append, closings_append, List.count_append, List.count_append] at hfd
  rw [hholds.contents_eq]
  omega

theorem Step.fds_nodup (hstep : Step size threads s t) (h : s.fds.Nodup) : t.fds.Nodup := by
  cases hstep with
  | main hmove =>
    generalize s.main = mpc at hmove
    cases hmove <;> exact h
  | @traverse i th th' u _ _ _ hmove =>
    generalize th.pc = pc at hmove
    generalize th'.pc = pc' at hmove
    cases hmove with
    | openSrc _ hfd | openDest _ _ hfd => exact List.nodup_cons.mpr ⟨hfd, h⟩
    | closeSrc => exact h.erase _
    | signal hu => cases hu <;> exact h
    | step _ _ hl => exact h
    | _ => exact h
  | work _ hmove =>
    cases hmove with
    | closeSrc | closeDest => exact h.erase _
    | signal hu | exitSignal hu => cases hu <;> exact h
    | _ => exact h
  | spuriousTraversal hu => cases hu <;> exact h
  | spuriousWorker hu => cases hu <;> exact h

theorem WorkerPc.copying_holds (h : pc.copying = some task) : pc.holds = true := by
  cases pc <;> first | rfl | contradiction

theorem WorkerPc.closed_of_copying (h : pc.copying = some task)
    (hfd : fd = task.srcFd ∨ fd = task.destFd) : .closed fd ∈ pc.todo := by
  rcases hfd with rfl | rfl
  all_goals cases pc <;> cases h <;> simp [WorkerPc.todo, Task.handling]

theorem Invariant.task_open (hi : Invariant size s) (h : task ∈ s.toCopy size)
    (hfd : fd = task.srcFd ∨ fd = task.destFd) : fd ∈ s.fds := by
  refine hi.fd_open (.inl (mem_closings.mpr ?_))
  rcases List.mem_append.mp h with hhand | hbuffer
  · obtain ⟨pc, hpc, hmem⟩ := List.mem_flatMap.mp hhand
    refine List.mem_append_left _ (List.mem_flatMap.mpr ⟨pc, hpc, ?_⟩)
    exact WorkerPc.closed_of_copying (Option.mem_toList.mp hmem) hfd
  · refine List.mem_append_right _ (List.mem_flatMap.mpr ⟨task, hbuffer, ?_⟩)
    rcases hfd with rfl | rfl <;> simp [Task.handling]

theorem Invariant.holder (hi : Invariant size s) (hpc : s.workers[i]? = some pc)
    (hh : pc.holds = true) {j : ℕ} (hj : s.workers[j]? = some pc') (hh' : pc'.holds = true) :
    j = i :=
  hi.locked.workers.unique worker_injective hj hpc hh' hh

/-- What a worker closes belongs to no task that is still to be copied, and to no
thread of the traversal. -/
theorem Invariant.closing_apart (hi : Invariant size s) (hnodup : s.fds.Nodup)
    (hpc : s.workers[i]? = some pc) (hcopying : pc.copying = none) (hfd : .closed fd ∈ pc.todo) :
    (∀ task ∈ s.toCopy size, fd ≠ task.srcFd ∧ fd ≠ task.destFd) ∧
    fd ∉ s.traversals.flatMap fun th => th.pc.fds := by
  have hcount := hi.fds_count fd
  have honce := List.nodup_iff_count_le_one.mp hnodup fd
  have hown : 0 < (closings (s.workers.flatMap WorkerPc.todo)).count fd :=
    List.count_pos_iff.mpr (mem_closings.mpr
      (List.mem_flatMap.mpr ⟨pc, List.mem_of_getElem? hpc, hfd⟩))
  constructor
  · intro task htask
    have hbuffer : task ∈ s.buffer.contents size := by
      rcases List.mem_append.mp htask with hhand | hbuffer
      · obtain ⟨pc', hpc', hmem⟩ := List.mem_flatMap.mp hhand
        have hcopies := Option.mem_toList.mp hmem
        obtain ⟨j, hj⟩ := List.mem_iff_getElem?.mp hpc'
        have hne : j ≠ i := by
          rintro rfl
          rw [hpc] at hj
          cases hj
          rw [hcopying] at hcopies
          contradiction
        have hholds : pc.holds = true := by
          by_contra hout
          rw [WorkerPc.todo_of_outside (Bool.eq_false_iff.mpr hout)] at hfd
          contradiction
        exact absurd (hi.holder hpc hholds hj (WorkerPc.copying_holds hcopies)) hne
      · exact hbuffer
    have hother (hsame : fd = task.srcFd ∨ fd = task.destFd) : False := by
      have hpos : 0 < (closings ((s.buffer.contents size).flatMap Task.handling)).count fd := by
        refine List.count_pos_iff.mpr (mem_closings.mpr
          (List.mem_flatMap.mpr ⟨task, hbuffer, ?_⟩))
        rcases hsame with rfl | rfl <;> simp [Task.handling]
      omega
    exact ⟨fun h => hother (.inl h), fun h => hother (.inr h)⟩
  · intro hmem
    have hpos := List.count_pos_iff.mpr hmem
    omega

/-- A task stays to be copied until the worker has it no longer in hand. -/
theorem toCopy_kept (hi : Invariant size s) (hpc : s.workers[i]? = some pc)
    (h : s.work size i pc r = some t) (ht : t.workers = s.workers.set i pc')
    (htask : task ∈ s.toCopy size) : task ∈ t.toCopy size ∨
      pc.copying = some task ∧ pc'.copying ≠ some task := by
  have hlt := (List.getElem?_eq_some_iff.mp hpc).1
  have hself : t.workers[i]? = some pc' := by rw [ht, List.getElem?_set_self hlt]
  obtain ⟨pending, hholds, -⟩ := hi.books.tallied
  obtain ⟨pc'', u, hmove, hu⟩ := State.work_move h
  have hok := hi.books.workers i pc hpc
  rcases List.mem_append.mp htask with hhand | hbuffer
  · obtain ⟨pc₀, hpc₀, hmem⟩ := List.mem_flatMap.mp hhand
    have hcopies := Option.mem_toList.mp hmem
    obtain ⟨j, hj⟩ := List.mem_iff_getElem?.mp hpc₀
    by_cases hji : j = i
    · subst hji
      rw [hpc] at hj
      cases hj
      by_cases hnew : pc'.copying = some task
      · exact .inl (mem_toCopy (List.mem_of_getElem? hself) hnew)
      · exact .inr ⟨hcopies, hnew⟩
    · have hold : t.workers[j]? = some pc₀ := by rw [ht, List.getElem?_set_ne (Ne.symm hji), hj]
      exact .inl (mem_toCopy (List.mem_of_getElem? hold) hcopies)
  · left
    rcases hmove.buffer with hsame | ⟨rfl, rfl, hdrop, -⟩
    · refine List.mem_append_right _ ?_
      rw [hu]
      show task ∈ u.buffer.contents size
      rwa [hsame]
    · rw [hholds.contents_eq] at hbuffer
      cases pending with
      | nil => exact absurd hbuffer List.not_mem_nil
      | cons first rest =>
        rcases List.mem_cons.mp hbuffer with rfl | hrest
        · have htaken : t.workers[i]? = some (.copy task) := by
            rw [hu, ← hholds.head]
            show (u.workers.set i _)[i]? = _
            rw [hmove.wakes.2.1, List.getElem?_set_self hlt]
          exact mem_toCopy (List.mem_of_getElem? htaken) rfl
        · refine List.mem_append_right _ ?_
          rw [hu]
          show task ∈ u.buffer.contents size
          rw [hdrop, hholds.drop.contents_eq]
          exact hrest

end Descriptors

/-! ### What has been copied -/

/-- The destination of the task has what the source has. -/
def Complete (source : Source) (w : World) (a : Added) : Prop :=
  ∃ content, source.content a.source = some content ∧ w.dest a.dest = some (.regular content)

/-- The destination has the first `offset` bytes, and what has been read behind them
is in the buffer of a worker. -/
structure Upto (source : Source) (s : State) (w : World) (a : Added) (content : Bytes)
    (offset : ℕ) : Prop where
  stored : source.content a.source = some content
  bound : offset ≤ content.length
  destFd : w.files a.task.destFd = some (.dest a.dest offset)
  dest : w.dest a.dest = some (.regular (content.take offset))
  src : (w.files a.task.srcFd = some (.source a.source offset) ∧
      ∀ (i n : ℕ), s.workers[i]? ≠ some (.write a.task n)) ∨
    ∃ i n, s.workers[i]? = some (.write a.task n) ∧ offset + n ≤ content.length ∧
      w.files a.task.srcFd = some (.source a.source (offset + n)) ∧
      w.bufs i = (content.drop offset).take n

def Underway (source : Source) (s : State) (w : World) (a : Added) : Prop :=
  ∃ content offset, Upto source s w a content offset

/-- No two tasks have a file in common. -/
def Apart (added : List Added) : Prop :=
  ∀ a ∈ added, ∀ b ∈ added, a ≠ b → a.source ≠ b.source ∧ a.dest ≠ b.dest

/-- The tasks that were added are done, or under way. -/
structure Transfers (source : Source) (size : ℕ) (s : State) (w : World) : Prop where
  tasks : ∀ task ∈ s.toCopy size, ∃ a ∈ s.added, a.task = task ∧ Underway source s w a
  added : ∀ a ∈ s.added, Complete source w a ∨ (a.task ∈ s.toCopy size ∧ Underway source s w a)
  fine : ∀ (i : ℕ) (pc : WorkerPc), s.workers[i]? = some pc → pc.fine = true
  fds : s.fds.Nodup

section Transfer
variable {source : Source} {size threads i : ℕ} {s t : State} {w w' : World} {a b : Added}
  {content : Bytes} {offset n : ℕ} {pc pc' : WorkerPc} {task : Task} {r : Reply}

theorem Upto.frame (h : Upto source s w a content offset)
    (hworkers : ∀ (j n : ℕ), t.workers[j]? = some (.write a.task n) ↔
      s.workers[j]? = some (.write a.task n))
    (hsrc : w'.files a.task.srcFd = w.files a.task.srcFd)
    (hdestFd : w'.files a.task.destFd = w.files a.task.destFd)
    (hdest : w'.dest a.dest = w.dest a.dest)
    (hbufs : ∀ (j n : ℕ), s.workers[j]? = some (.write a.task n) → w'.bufs j = w.bufs j) :
    Upto source t w' a content offset := by
  refine ⟨h.stored, h.bound, hdestFd.trans h.destFd, hdest.trans h.dest, ?_⟩
  rcases h.src with ⟨hfile, hnone⟩ | ⟨j, n, hj, hbound, hfile, hbuf⟩
  · exact .inl ⟨hsrc.trans hfile, fun j n hj => hnone j n ((hworkers j n).mp hj)⟩
  · exact .inr ⟨j, n, (hworkers j n).mpr hj, hbound, hsrc.trans hfile, (hbufs j n hj).trans hbuf⟩

theorem Complete.frame (h : Complete source w a) (hdest : w'.dest a.dest = w.dest a.dest) :
    Complete source w' a := by
  obtain ⟨content, hcontent, hfile⟩ := h
  exact ⟨content, hcontent, hdest.trans hfile⟩

theorem write_set_iff (hpc : s.workers[i]? = some pc) (ht : t.workers = s.workers.set i pc')
    (hold : ∀ n, pc.unwritten ≠ some (task, n)) (hnew : ∀ n, pc'.unwritten ≠ some (task, n))
    (j n : ℕ) : t.workers[j]? = some (.write task n) ↔ s.workers[j]? = some (.write task n) := by
  rw [ht]
  by_cases hij : i = j
  · subst hij
    have hlt := (List.getElem?_eq_some_iff.mp hpc).1
    rw [List.getElem?_set_self hlt, hpc]
    constructor
    · intro h
      cases h
      exact absurd rfl (hnew n)
    · intro h
      cases h
      exact absurd rfl (hold n)
  · rw [List.getElem?_set_ne hij]

/-- Between two rounds the worker is at the end of what it has copied. -/
theorem Upto.between (h : Upto source s w a content offset) (hi : Invariant size s)
    (hpc : s.workers[i]? = some pc) (hh : pc.holds = true) (hold : pc.unwritten = none) :
    w.files a.task.srcFd = some (.source a.source offset) ∧
      ∀ (i n : ℕ), s.workers[i]? ≠ some (.write a.task n) := by
  rcases h.src with hsrc | ⟨j, n, hj, -⟩
  · exact hsrc
  · obtain rfl := hi.holder hpc hh hj rfl
    rw [hpc] at hj
    cases hj
    contradiction

theorem Upto.srcFd (h : Upto source s w a content offset) :
    ∃ o, w.files a.task.srcFd = some (.source a.source o) := by
  rcases h.src with ⟨hsrc, -⟩ | ⟨_, n, -, -, hsrc, -⟩
  · exact ⟨_, hsrc⟩
  · exact ⟨_, hsrc⟩

theorem Upto.fds_ne (h : Upto source s w a content offset) : a.task.srcFd ≠ a.task.destFd := by
  intro heq
  obtain ⟨o, hsrc⟩ := h.srcFd
  rw [heq, h.destFd] at hsrc
  cases hsrc

/-- The files of two tasks are open at different descriptors. -/
theorem Upto.apart {content' : Bytes} {offset' : ℕ} (h : Upto source s w a content offset)
    (h' : Upto source s w b content' offset') (hsource : a.source ≠ b.source)
    (hdest : a.dest ≠ b.dest) :
    (a.task.srcFd ≠ b.task.srcFd ∧ a.task.srcFd ≠ b.task.destFd) ∧
      a.task.destFd ≠ b.task.srcFd ∧ a.task.destFd ≠ b.task.destFd := by
  obtain ⟨o, ha⟩ := h.srcFd
  obtain ⟨o', hb⟩ := h'.srcFd
  have hd := h.destFd
  refine ⟨⟨fun heq => ?_, fun heq => ?_⟩, fun heq => ?_, fun heq => ?_⟩
  · rw [heq, hb] at ha
    exact hsource (Opened.source.inj (Option.some.inj ha)).1.symm
  · rw [heq, h'.destFd] at ha
    cases ha
  · rw [heq, hb] at hd
    cases hd
  · rw [heq, h'.destFd] at hd
    exact hdest (Opened.dest.inj (Option.some.inj hd)).1.symm

theorem Upto.read {path : Bytes} {offset' : ℕ} {content' : Bytes}
    (h : Upto source s w a content offset) (hi : Invariant size s)
    (hpc : s.workers[i]? = some (.read a.task))
    (ht : t.workers = s.workers.set i (.write a.task n))
    (hfile : w.files a.task.srcFd = some (.source path offset'))
    (hcontent : source.content path = some content') (hroom : offset' + n ≤ content'.length) :
    Upto source t { w.openAs a.task.srcFd (some (.source path (offset' + n))) with
      bufs := Function.update w.bufs i ((content'.drop offset').take n) } a content offset := by
  have hlt := (List.getElem?_eq_some_iff.mp hpc).1
  obtain ⟨hsrc, -⟩ := h.between hi hpc rfl rfl
  rw [hfile] at hsrc
  cases hsrc
  rw [h.stored] at hcontent
  cases hcontent
  have hdestFd : Function.update w.files a.task.srcFd (some (.source a.source (offset + n)))
      a.task.destFd = some (.dest a.dest offset) := by
    rw [Function.update_of_ne h.fds_ne.symm, h.destFd]
  refine ⟨h.stored, h.bound, hdestFd, h.dest, .inr ⟨i, n, ?_, hroom, Function.update_self ..,
    Function.update_self ..⟩⟩
  rw [ht, List.getElem?_set_self hlt]

theorem Upto.ended {path : Bytes} {offset' : ℕ} {content' : Bytes}
    (h : Upto source s w a content offset) (hi : Invariant size s)
    (hpc : s.workers[i]? = some (.read a.task))
    (hfile : w.files a.task.srcFd = some (.source path offset'))
    (hcontent : source.content path = some content') (hend : content'.length ≤ offset') :
    Complete source w a := by
  obtain ⟨hsrc, -⟩ := h.between hi hpc rfl rfl
  rw [hfile] at hsrc
  cases hsrc
  rw [h.stored] at hcontent
  cases hcontent
  refine ⟨content, h.stored, ?_⟩
  rw [h.dest, List.take_of_length_le hend]

theorem Upto.write {path data : Bytes} {offset' : ℕ}
    (h : Upto source s w a content offset) (hi : Invariant size s)
    (hpc : s.workers[i]? = some (.write a.task n))
    (ht : t.workers = s.workers.set i (.lockOutput a.task (.bytes n)))
    (hfile : w.files a.task.destFd = some (.dest path offset'))
    (hdata : w.dest path = some (.regular data)) :
    Upto source t ((w.put path (some (.regular (writeAt data offset' ((w.bufs i).take n))))).openAs
      a.task.destFd (some (.dest path (offset' + n)))) a content (offset + n) := by
  have hlt := (List.getElem?_eq_some_iff.mp hpc).1
  rw [h.destFd] at hfile
  cases hfile
  rw [h.dest] at hdata
  cases hdata
  obtain ⟨hbound, hsrc, hbuf⟩ : offset + n ≤ content.length ∧
      w.files a.task.srcFd = some (.source a.source (offset + n)) ∧
      w.bufs i = (content.drop offset).take n := by
    rcases h.src with ⟨-, hnone⟩ | ⟨j, m, hj, hrest⟩
    · exact absurd hpc (hnone i n)
    · obtain rfl := hi.holder hpc rfl hj rfl
      rw [hpc] at hj
      cases hj
      exact hrest
  have hlength : (content.take offset).length = offset := by
    rw [List.length_take, Nat.min_eq_left h.bound]
  have hwritten : writeAt (content.take offset) offset ((w.bufs i).take n) =
      content.take (offset + n) := by
    have hend := writeAt_end (content.take offset) ((w.bufs i).take n)
    rw [hlength] at hend
    rw [hend, hbuf, List.take_take, Nat.min_self, List.take_add]
  refine ⟨h.stored, hbound, Function.update_self .., ?_, .inl ⟨?_, fun j m hj => ?_⟩⟩
  · rw [hwritten]
    exact Function.update_self ..
  · exact (Function.update_of_ne h.fds_ne _ _).trans hsrc
  · rw [ht] at hj
    rcases getElem?_set_some hj with ⟨-, heq⟩ | ⟨hne, hold⟩
    · contradiction
    · exact hne (hi.holder hpc rfl hold rfl)

/-- A worker moves while no task has bytes in its buffer. -/
theorem Underway.onward (h : Underway source s w a) (hpc : s.workers[i]? = some pc)
    (ht : t.workers = s.workers.set i pc') (hold : pc.unwritten = none)
    (hnew : pc'.unwritten = none) : Underway source t w a := by
  obtain ⟨content, offset, h⟩ := h
  have hworkers (j n : ℕ) : t.workers[j]? = some (.write a.task n) ↔
      s.workers[j]? = some (.write a.task n) :=
    write_set_iff hpc ht (by simp [hold]) (by simp [hnew]) j n
  exact ⟨content, offset, h.frame hworkers rfl rfl rfl fun _ _ _ => rfl⟩

/-- A worker moves on with a task `b`. -/
theorem Underway.other (h : Underway source s w a) (hb : Underway source s w b)
    (hsource : a.source ≠ b.source) (hdest : a.dest ≠ b.dest)
    (hpc : s.workers[i]? = some pc) (ht : t.workers = s.workers.set i pc')
    (hcopying : pc.copying = some b.task) (hcopying' : pc'.copying = some b.task)
    (hfiles : ∀ fd, fd ≠ b.task.srcFd → fd ≠ b.task.destFd → w'.files fd = w.files fd)
    (hdests : ∀ path, path ≠ b.dest → w'.dest path = w.dest path)
    (hbufs : ∀ j, j ≠ i → w'.bufs j = w.bufs j) : Underway source t w' a := by
  obtain ⟨content, offset, h⟩ := h
  obtain ⟨content', offset', hb⟩ := hb
  obtain ⟨⟨hss, hsd⟩, hds, hdd⟩ := h.apart hb hsource hdest
  have hne : a.task ≠ b.task := fun heq => hss (congrArg Task.srcFd heq)
  have hunwritten {pc : WorkerPc} (hcopying : pc.copying = some b.task) (n : ℕ) :
      pc.unwritten ≠ some (a.task, n) := by
    intro heq
    cases pc <;> cases heq
    exact hne (Option.some.inj hcopying)
  refine ⟨content, offset, h.frame (write_set_iff hpc ht (hunwritten hcopying)
    (hunwritten hcopying')) (hfiles _ hss hsd) (hfiles _ hds hdd) (hdests _ hdest) ?_⟩
  intro j n hj
  refine hbufs j ?_
  rintro rfl
  rw [hpc] at hj
  cases hj
  exact hunwritten hcopying n rfl

theorem Transfers.work (h : Transfers source size s w) (hi : Invariant size s)
    (hapart : Apart s.added) (hpc : s.workers[i]? = some pc)
    (hwork : s.work size i pc r = some t) (hw : w.work source i pc r = some w')
    (hfds : t.fds.Nodup) : Transfers source size t w' := by
  obtain ⟨pc', ht, hfine, hmove⟩ := work_step hwork hw (h.fine i pc hpc)
  have hadded : t.added = s.added := by
    obtain ⟨pc'', u, hmove, rfl⟩ := State.work_move hwork
    exact hmove.added
  have hsub := toCopy_work hi hpc hwork
  have hfine' (j : ℕ) (x : WorkerPc) (hj : t.workers[j]? = some x) : x.fine = true := by
    rw [ht] at hj
    rcases getElem?_set_some hj with ⟨-, rfl⟩ | ⟨-, hold⟩
    · exact hfine
    · exact h.fine j x hold
  -- what is left to show of the tasks and of what was added
  have build (hunder : ∀ a ∈ s.added, a.task ∈ s.toCopy size → Underway source s w a →
        Underway source t w' a)
      (hcomplete : ∀ a ∈ s.added, Complete source w a →
        Complete source w' a ∨ a.task ∈ s.toCopy size ∧ Underway source s w a)
      (hended : ∀ a ∈ s.added, Underway source s w a → pc.copying = some a.task →
        pc'.copying ≠ some a.task → Complete source w' a) : Transfers source size t w' := by
    refine ⟨fun task htask => ?_, fun a ha => ?_, hfine', hfds⟩
    · obtain ⟨a, ha, rfl, hway⟩ := h.tasks task (hsub htask)
      exact ⟨a, hadded ▸ ha, rfl, hunder a ha (hsub htask) hway⟩
    · rw [hadded] at ha
      have hway (hc : a.task ∈ s.toCopy size) (hway : Underway source s w a) :
          Complete source w' a ∨ a.task ∈ t.toCopy size ∧ Underway source t w' a := by
        rcases toCopy_kept hi hpc hwork ht hc with hkept | ⟨hold, hnew⟩
        · exact .inr ⟨hkept, hunder a ha hc hway⟩
        · exact .inl (hended a ha hway hold hnew)
      rcases h.added a ha with hdone | ⟨hc, hu⟩
      · rcases hcomplete a ha hdone with hdone' | ⟨hc, hu⟩
        · exact .inl hdone'
        · exact hway hc hu
      · exact hway hc hu
  cases hmove with
  | onward hold hnew hsame =>
    exact build (fun a _ _ hu => hu.onward hpc ht hold hnew) (fun a _ hc => .inl hc)
      fun a _ _ hcopying hne => absurd (hsame.trans hcopying) hne
  | take =>
    exact build (fun a _ _ hu => hu.onward hpc ht rfl rfl) (fun a _ hc => .inl hc)
      fun a _ _ hcopying _ => by contradiction
  | @read task n offset path content hfile hcontent hroom =>
    obtain ⟨b, hb, rfl, hbway⟩ :=
      h.tasks task (mem_toCopy (List.mem_of_getElem? hpc) rfl)
    refine build (fun a ha _ hu => ?_) (fun a _ hc => .inl (hc.frame rfl))
      fun a _ _ hcopying hne => absurd hcopying hne
    by_cases hab : a = b
    · subst hab
      obtain ⟨content', offset', hupto⟩ := hu
      exact ⟨content', offset', hupto.read hi hpc ht hfile hcontent hroom⟩
    · obtain ⟨hsource, hdest⟩ := hapart a ha b hb hab
      exact hu.other hbway hsource hdest hpc ht rfl rfl
        (fun fd hne _ => Function.update_of_ne hne ..) (fun _ _ => rfl)
        fun j hne => Function.update_of_ne hne ..
  | @ended task offset path content hfile hcontent hend =>
    refine build (fun a _ _ hu => hu.onward hpc ht rfl rfl) (fun a _ hc => .inl hc) ?_
    intro a _ hu hcopying _
    obtain rfl : task = a.task := Option.some.inj hcopying
    obtain ⟨content', offset', hupto⟩ := hu
    exact hupto.ended hi hpc hfile hcontent hend
  | @write task n offset path data hfile hdata =>
    have hmem : task ∈ s.toCopy size := mem_toCopy (List.mem_of_getElem? hpc) rfl
    obtain ⟨b, hb, rfl, hbway⟩ := h.tasks task hmem
    obtain ⟨content', offset', hupto⟩ := hbway
    have hpath : path = b.dest := by
      have hfd := hupto.destFd
      rw [hfile] at hfd
      exact (Opened.dest.inj (Option.some.inj hfd)).1
    have hother (a : Added) (ha : a ∈ s.added) (hab : a ≠ b) := hapart a ha b hb hab
    refine build (fun a ha _ hu => ?_) (fun a ha hc => ?_)
      fun a _ _ hcopying hne => absurd hcopying hne
    · by_cases hab : a = b
      · subst hab
        obtain ⟨content', offset', hupto⟩ := hu
        exact ⟨content', offset' + n, hupto.write hi hpc ht hfile hdata⟩
      · obtain ⟨hsource, hdest⟩ := hother a ha hab
        exact hu.other ⟨content', offset', hupto⟩ hsource hdest hpc ht rfl rfl
          (fun fd _ hne => Function.update_of_ne hne ..)
          (fun p hne => Function.update_of_ne (hpath ▸ hne) ..) fun _ _ => rfl
    · by_cases hab : a = b
      · subst hab
        exact .inr ⟨hmem, content', offset', hupto⟩
      · exact .inl (hc.frame (Function.update_of_ne (hpath ▸ (hother a ha hab).2) ..))
  | closeSrc task =>
    have htodo : .closed task.srcFd ∈ (WorkerPc.closeSrc task).todo := by
      simp [WorkerPc.todo]
    obtain ⟨hfree, -⟩ := hi.closing_apart h.fds hpc rfl htodo
    refine build (fun a _ hc hu => ?_) (fun a _ hc => .inl (hc.frame rfl))
      fun a _ _ hcopying _ => by contradiction
    obtain ⟨content, offset, hupto⟩ := hu
    obtain ⟨hs, hd⟩ := hfree a.task hc
    have hworkers (j n : ℕ) : t.workers[j]? = some (.write a.task n) ↔
        s.workers[j]? = some (.write a.task n) :=
      write_set_iff hpc ht (by simp [WorkerPc.unwritten]) (by simp [WorkerPc.unwritten]) j n
    exact ⟨content, offset, hupto.frame hworkers (Function.update_of_ne hs.symm ..)
      (Function.update_of_ne hd.symm ..) rfl fun _ _ _ => rfl⟩
  | closeDest task =>
    have htodo : .closed task.destFd ∈ (WorkerPc.closeDest task).todo := by
      simp [WorkerPc.todo]
    obtain ⟨hfree, -⟩ := hi.closing_apart h.fds hpc rfl htodo
    refine build (fun a _ hc hu => ?_) (fun a _ hc => .inl (hc.frame rfl))
      fun a _ _ hcopying _ => by contradiction
    obtain ⟨content, offset, hupto⟩ := hu
    obtain ⟨hs, hd⟩ := hfree a.task hc
    have hworkers (j n : ℕ) : t.workers[j]? = some (.write a.task n) ↔
        s.workers[j]? = some (.write a.task n) :=
      write_set_iff hpc ht (by simp [WorkerPc.unwritten]) (by simp [WorkerPc.unwritten]) j n
    exact ⟨content, offset, hupto.frame hworkers (Function.update_of_ne hs.symm ..)
      (Function.update_of_ne hd.symm ..) rfl fun _ _ _ => rfl⟩

/-! ### What leaves the tasks alone -/

/-- The workers have the same tasks in hand and the same bytes in their buffers. -/
structure State.SameHands (s t : State) : Prop where
  hands : t.inHand = s.inHand
  writing : ∀ (task : Task) (j n : ℕ), t.workers[j]? = some (.write task n) ↔
    s.workers[j]? = some (.write task n)
  fine : (∀ pc ∈ s.workers, pc.fine = true) → ∀ pc ∈ t.workers, pc.fine = true

theorem State.SameHands.of_workers (h : t.workers = s.workers) : s.SameHands t := by
  refine ⟨?_, fun task j n => ?_, fun hfine => ?_⟩
  · rw [State.inHand, State.inHand, h]
  · rw [h]
  · rwa [h]

theorem State.WakesWorker.sameHands (h : s.WakesWorker t) : s.SameHands t := by
  refine ⟨h.inHand, fun task j n => ?_, fun hfine pc hmem => ?_⟩
  · cases h with
    | nobody => rfl
    | one hj =>
      refine write_set_iff hj rfl ?_ ?_ j n
      · nofun
      · nofun
  · cases h with
    | nobody => exact hfine pc hmem
    | one hj =>
      rcases List.mem_or_eq_of_mem_set hmem with hold | rfl
      · exact hfine pc hold
      · rfl

theorem State.SameHands.main {mpc' : MainPc} (hmove : MainMove threads s s.main mpc' t) :
    s.SameHands (t.mainAt mpc') := by
  generalize s.main = mpc at hmove
  cases hmove with
  | createWorker =>
    refine ⟨?_, fun task j n => ?_, fun hfine pc hmem => ?_⟩
    · rw [State.inHand, State.inHand]
      simp [State.mainAt, WorkerPc.copying]
    · show (s.workers ++ [.lock])[j]? = _ ↔ _
      rw [List.getElem?_append]
      split
      · rfl
      · next hge =>
        rw [List.getElem?_eq_none (Nat.le_of_not_lt hge), List.getElem?_singleton]
        split <;> simp
    · rcases List.mem_append.mp hmem with hold | hnew
      · exact hfine pc hold
      · rw [List.mem_singleton.mp hnew]
        rfl
  | broadcast =>
    have hcopying (pc : WorkerPc) : pc.wake.copying = pc.copying := by cases pc <;> rfl
    refine ⟨?_, fun task j n => ?_, fun hfine pc hmem => ?_⟩
    · rw [State.inHand, State.inHand]
      simp [State.mainAt, List.flatMap_map, hcopying]
    · show (s.workers.map WorkerPc.wake)[j]? = _ ↔ _
      rw [List.getElem?_map]
      cases s.workers[j]? with
      | none => simp
      | some pc => cases pc <;> simp [WorkerPc.wake]
    · obtain ⟨pc, hold, rfl⟩ := List.mem_map.mp hmem
      have hpc := hfine pc hold
      cases pc <;> exact hpc
  | _ => exact .of_workers rfl

theorem State.SameHands.traverse {i : ℕ} {th : Traversal} (hth : s.traversals[i]? = some th)
    (hn : s.traverse size i th th.pc r = some t) : s.SameHands t := by
  obtain ⟨th', u, -, -, hmove, rfl⟩ := State.traverse_move hth hn rfl
  obtain ⟨-, ⟨v, hv, -, hws⟩, -⟩ := hmove.wakes
  have hsame := hv.sameHands
  have hws : (u.traversalAt i th').workers = v.workers := hws
  refine ⟨?_, fun task j n => ?_, fun hfine => ?_⟩
  · rw [State.inHand, hws]
    exact hsame.hands
  · rw [hws]
    exact hsame.writing task j n
  · rw [hws]
    exact hsame.fine hfine

theorem Underway.frame (h : Underway source s w a) (hhands : s.SameHands t)
    (hsrc : w'.files a.task.srcFd = w.files a.task.srcFd)
    (hdestFd : w'.files a.task.destFd = w.files a.task.destFd)
    (hdest : w'.dest a.dest = w.dest a.dest) (hbufs : w'.bufs = w.bufs) :
    Underway source t w' a := by
  obtain ⟨content, offset, h⟩ := h
  exact ⟨content, offset, h.frame (hhands.writing a.task) hsrc hdestFd hdest
    fun j _ _ => congrFun hbufs j⟩

/-- The files that are open for the tasks stay as they are. -/
theorem Transfers.underway (h : Transfers source size s w) (hi : Invariant size s)
    (hhands : s.SameHands t) (hfiles : ∀ fd ∈ s.fds, w'.files fd = w.files fd)
    (hdests : ∀ a ∈ s.added, w'.dest a.dest = w.dest a.dest) (hbufs : w'.bufs = w.bufs) :
    (∀ task ∈ s.toCopy size, ∃ a ∈ s.added, a.task = task ∧ Underway source t w' a) ∧
    ∀ a ∈ s.added, Complete source w' a ∨ (a.task ∈ s.toCopy size ∧ Underway source t w' a) := by
  have hway (a : Added) (ha : a ∈ s.added) (hc : a.task ∈ s.toCopy size)
      (hu : Underway source s w a) : Underway source t w' a :=
    hu.frame hhands (hfiles _ (hi.task_open hc (.inl rfl))) (hfiles _ (hi.task_open hc (.inr rfl)))
      (hdests a ha) hbufs
  constructor
  · intro task htask
    obtain ⟨a, ha, rfl, hu⟩ := h.tasks task htask
    exact ⟨a, ha, rfl, hway a ha htask hu⟩
  · intro a ha
    rcases h.added a ha with hdone | ⟨hc, hu⟩
    · exact .inl (hdone.frame (hdests a ha))
    · exact .inr ⟨hc, hway a ha hc hu⟩

theorem Transfers.frame (h : Transfers source size s w) (hi : Invariant size s)
    (hhands : s.SameHands t) (hbuffer : s.SameBuffer t) (hfds : t.fds.Nodup)
    (hfiles : ∀ fd ∈ s.fds, w'.files fd = w.files fd)
    (hdests : ∀ a ∈ s.added, w'.dest a.dest = w.dest a.dest) (hbufs : w'.bufs = w.bufs) :
    Transfers source size t w' := by
  obtain ⟨htasks, hadded⟩ := h.underway hi hhands hfiles hdests hbufs
  have hsame : t.toCopy size = s.toCopy size := by
    rw [State.toCopy, State.toCopy, hhands.hands, hbuffer.buffer]
  refine ⟨?_, ?_, fun i pc hpc => ?_, hfds⟩
  · rw [hsame, hbuffer.added]
    exact htasks
  · rw [hsame, hbuffer.added]
    exact hadded
  · refine hhands.fine (fun x hx => ?_) pc (List.mem_of_getElem? hpc)
    obtain ⟨j, hj⟩ := List.mem_iff_getElem?.mp hx
    exact h.fine j x hj

/-- A task is added, and nothing of it has been copied. -/
theorem Transfers.add {file : OpenFile} {th : Traversal} (h : Transfers source size s w)
    (hi : Invariant size s) (hth : s.traversals[i]? = some th) (hpc : th.pc = .add file)
    (hhands : s.SameHands t)
    (hbuffer : t.buffer = s.buffer.put size ⟨file.srcFd, file.destFd, .destPath i⟩)
    (hadded : t.added = s.added ++
      [⟨⟨file.srcFd, file.destFd, .destPath i⟩, file.name, th.srcPath, th.destPath⟩])
    (hfds : t.fds.Nodup) (hcontent : source.content th.srcPath = some content)
    (hsrc : w.files file.srcFd = some (.source th.srcPath 0))
    (hdestFd : w.files file.destFd = some (.dest th.destPath 0))
    (hdest : w.dest th.destPath = some (.regular []))
    (hfiles : w'.files = w.files) (hdests : w'.dest = w.dest) (hbufs : w'.bufs = w.bufs) :
    Transfers source size t w' := by
  have hkept (fd : ℕ) (_ : fd ∈ s.fds) : w'.files fd = w.files fd := congrFun hfiles fd
  obtain ⟨htasks, hold⟩ := h.underway hi hhands hkept (fun a _ => congrFun hdests a.dest) hbufs
  obtain ⟨pending, hholds, -⟩ := hi.books.tallied
  have hroom := hi.books.traversals i th hth
  rw [hpc] at hroom
  have hput : t.buffer.contents size =
      s.buffer.contents size ++ [⟨file.srcFd, file.destFd, .destPath i⟩] := by
    rw [hbuffer, (hholds.put hroom).contents_eq, hholds.contents_eq]
  have hmem (task : Task) : task ∈ t.toCopy size ↔
      task ∈ s.toCopy size ∨ task = ⟨file.srcFd, file.destFd, .destPath i⟩ := by
    simp only [State.toCopy, hput, hhands.hands, List.mem_append, List.mem_singleton]
    tauto
  have hnew : Underway source t w'
      ⟨⟨file.srcFd, file.destFd, .destPath i⟩, file.name, th.srcPath, th.destPath⟩ := by
    refine ⟨content, 0, hcontent, Nat.zero_le _, (congrFun hfiles _).trans hdestFd,
      (congrFun hdests _).trans hdest, .inl ⟨(congrFun hfiles _).trans hsrc, fun j n hj => ?_⟩⟩
    have hwriting := (hhands.writing _ j n).mp hj
    exact hi.locked.apart hwriting hth rfl (by rw [hpc]; rfl)
  refine ⟨fun task htask => ?_, fun a ha => ?_, fun j pc hj => ?_, hfds⟩
  · rw [hadded]
    rcases (hmem task).mp htask with hc | rfl
    · obtain ⟨a, ha, htask', hu⟩ := htasks task hc
      exact ⟨a, List.mem_append_left _ ha, htask', hu⟩
    · exact ⟨_, List.mem_append_right _ (List.mem_singleton_self _), rfl, hnew⟩
  · rw [hadded] at ha
    rcases List.mem_append.mp ha with ha | ha
    · exact (hold a ha).imp_right fun hc => ⟨(hmem _).mpr (.inl hc.1), hc.2⟩
    · rw [List.mem_singleton.mp ha]
      exact .inr ⟨(hmem _).mpr (.inr rfl), hnew⟩
  · refine hhands.fine (fun x hx => ?_) pc (List.mem_of_getElem? hj)
    obtain ⟨k, hk⟩ := List.mem_iff_getElem?.mp hx
    exact h.fine k x hk

/-- What a worker changes belongs to a task that is under way, or it closes it. -/
theorem Transfers.touches (h : Transfers source size s w) (hpc : s.workers[i]? = some pc)
    (hmove : WorkStep source s w i pc pc' w') :
    (∀ fd, w'.files fd = w.files fd ∨
      (∃ b ∈ s.added, Underway source s w b ∧ (fd = b.task.srcFd ∨ fd = b.task.destFd)) ∨
      pc.copying = none ∧ .closed fd ∈ pc.todo) ∧
    ∀ path, w'.dest path = w.dest path ∨ ∃ b ∈ s.added, path = b.dest := by
  cases hmove with
  | @read task =>
    obtain ⟨b, hb, rfl, hu⟩ := h.tasks task (mem_toCopy (List.mem_of_getElem? hpc) rfl)
    refine ⟨fun fd => ?_, fun _ => .inl rfl⟩
    by_cases hfd : fd = b.task.srcFd
    · exact .inr (.inl ⟨b, hb, hu, .inl hfd⟩)
    · exact .inl (Function.update_of_ne hfd ..)
  | @write task n offset path data hfile =>
    obtain ⟨b, hb, rfl, hu⟩ := h.tasks task (mem_toCopy (List.mem_of_getElem? hpc) rfl)
    have hway := hu
    obtain ⟨content, offset', hupto⟩ := hway
    have hfd := hupto.destFd
    rw [hfile] at hfd
    obtain ⟨rfl, -⟩ := Opened.dest.inj (Option.some.inj hfd)
    refine ⟨fun fd => ?_, fun path => ?_⟩
    · by_cases hfd : fd = b.task.destFd
      · exact .inr (.inl ⟨b, hb, hu, .inr hfd⟩)
      · exact .inl (Function.update_of_ne hfd ..)
    · by_cases hpath : path = b.dest
      · exact .inr ⟨b, hb, hpath⟩
      · exact .inl (Function.update_of_ne hpath ..)
  | closeSrc task =>
    refine ⟨fun fd => ?_, fun _ => .inl rfl⟩
    by_cases hfd : fd = task.srcFd
    · exact .inr (.inr ⟨rfl, by simp [hfd, WorkerPc.todo]⟩)
    · exact .inl (Function.update_of_ne hfd ..)
  | closeDest task =>
    refine ⟨fun fd => ?_, fun _ => .inl rfl⟩
    by_cases hfd : fd = task.destFd
    · exact .inr (.inr ⟨rfl, by simp [hfd, WorkerPc.todo]⟩)
    · exact .inl (Function.update_of_ne hfd ..)
  | _ => exact ⟨fun _ => .inl rfl, fun _ => .inl rfl⟩

end Transfer

end AdvancedCProjects.Copier
