import AdvancedCProjects.Base.Fifo
import AdvancedCProjects.Copier.Tasks

/-!
# The task buffer is a queue (program.c:307-329, 382-409)

The two critical sections of `buffer_mutex` as they are guarded: a task is added
when the buffer is not full and one is taken when it is not empty. The buffer of
the whole program goes through such runs.
-/

namespace AdvancedCProjects.Copier
open Base

/-- `add_task_to_buffer` and `process_task_from_buffer`, each under the mutex. -/
def taskBuffer (size : ℕ) : Machine (RingBuffer Task) (QueueOp Task) where
  start r := r.inp = 0 ∧ r.out = 0
  next
    | r, .put task => if (r.inp + 1) % size = r.out then none else some (r.put size task)
    | r, .take => if r.inp = r.out then none else some (r.drop size)

/-- With the tasks that were added and the ones that were read from `buffer_out`. -/
def taskBufferLog (size : ℕ) : Machine (RingBuffer Task × QueueLog Task) (QueueOp Task) :=
  (taskBuffer size).recorded (fun _ => ⟨[], []⟩) fun r op =>
    QueueLog.record (some (r.slots r.out)) op

section Refinement
variable {size : ℕ} {r r' : RingBuffer Task} {op : QueueOp Task} {pending : List Task}

theorem taskBuffer_step (h : r.Holds size pending) (hn : (taskBuffer size).next r op = some r') :
    ∃ pending', (fifo (size - 1)).next pending op = some pending' ∧ r'.Holds size pending' ∧
      ∀ log, QueueLog.record (some (r.slots r.out)) op log =
        QueueLog.record pending.head? op log := by
  cases op with
  | put task =>
    simp only [taskBuffer] at hn
    split at hn
    · contradiction
    · next hroom =>
      obtain rfl := Option.some.inj hn
      have hlength := mt h.full_iff.mpr hroom
      have hspare := h.spare
      refine ⟨pending ++ [task], ?_, h.put hroom, fun log => rfl⟩
      simp only [fifo]
      rw [if_pos (by omega)]
  | take =>
    simp only [taskBuffer] at hn
    split at hn
    · contradiction
    · next hne =>
      obtain rfl := Option.some.inj hn
      cases pending with
      | nil => exact absurd (h.empty_iff.mpr rfl) hne
      | cons task rest => exact ⟨rest, rfl, h.drop, fun log => by rw [h.head]; rfl⟩

theorem taskBuffer_simulation (hsize : 2 ≤ size) :
    (taskBufferLog size).Simulation (fifoLog (size - 1)) fun s t =>
      s.1.Holds size t.1 ∧ s.2 = t.2 where
  base s hs := by
    obtain ⟨r, log⟩ := s
    obtain ⟨⟨hinp, hout⟩, hlog⟩ := hs
    have hinp : r.inp = 0 := hinp
    have hout : r.out = 0 := hout
    refine ⟨([], log), ⟨rfl, hlog⟩, ?_, rfl⟩
    apply RingBuffer.holds_nil
    · show r.out < size
      omega
    · show r.inp = r.out
      omega
  keep s op s' t hr hn := by
    obtain ⟨r, log⟩ := s
    obtain ⟨pending, log'⟩ := t
    obtain ⟨hholds, hlog⟩ := hr
    obtain rfl : log = log' := hlog
    obtain ⟨r', hr', rfl⟩ := Option.map_eq_some_iff.mp hn
    obtain ⟨pending', hnext, hholds', hrecord⟩ := taskBuffer_step hholds hr'
    refine ⟨(pending', QueueLog.record pending.head? op log), ?_, hholds', hrecord log⟩
    exact Option.map_eq_some_iff.mpr ⟨pending', hnext, rfl⟩

theorem taskBufferLog_put (size : ℕ) (task : Task) (added removed : List Task)
    (hroom : (r.inp + 1) % size ≠ r.out) :
    (taskBufferLog size).next (r, ⟨added, removed⟩) (.put task) =
      some (r.put size task, ⟨added ++ [task], removed⟩) := by
  simp [taskBufferLog, Machine.recorded, taskBuffer, hroom, QueueLog.record]

theorem taskBufferLog_take (size : ℕ) (added removed : List Task) (hne : r.inp ≠ r.out) :
    (taskBufferLog size).next (r, ⟨added, removed⟩) .take =
      some (r.drop size, ⟨added, removed ++ [r.slots r.out]⟩) := by
  simp [taskBufferLog, Machine.recorded, taskBuffer, hne, QueueLog.record]

end Refinement

theorem copier_buffer {size threads : ℕ} (hsize : 0 < size) {s : State}
    (hr : (copier size threads).Reachable s) :
    ∃ removed, (taskBufferLog size).Reachable (s.buffer, ⟨s.added.map Added.task, removed⟩) := by
  induction hr with
  | start hs => exact ⟨[], .start ⟨⟨hs.inp, hs.out⟩, by rw [hs.added]; rfl⟩⟩
  | @step s t a hr _ hn ih =>
    have hbooks := ((copier_inductive hsize threads).holds hr).books
    obtain ⟨removed, hlog⟩ := ih
    have same (hb : t.buffer = s.buffer) (ha : t.added = s.added) : ∃ removed,
        (taskBufferLog size).Reachable (t.buffer, ⟨t.added.map Added.task, removed⟩) :=
      ⟨removed, by rwa [hb, ha]⟩
    cases copier_step hn with
    | main hmove =>
      generalize s.main = mpc at hmove
      cases hmove <;> exact same rfl rfl
    | traverse hth _ _ hmove =>
      rcases hmove.buffer with ⟨hb, ha⟩ | ⟨file, added, hpc, -, -, -, hb, ha⟩
      · exact same hb ha
      · have hroom := hbooks.traversals _ _ hth
        rw [hpc] at hroom
        have hnext := taskBufferLog_put size added.task (s.added.map Added.task) removed hroom
        refine ⟨removed, hlog.step trivial (hnext.trans ?_)⟩
        simp only [State.traversalAt, hb, ha, List.map_append, List.map_singleton]
    | work hpc hmove =>
      rcases hmove.buffer with hb | ⟨htake, -, hb, -⟩
      · exact same hb hmove.added
      · have hne := hbooks.workers _ _ hpc
        rw [htake] at hne
        have hnext := taskBufferLog_take size (s.added.map Added.task) removed hne
        refine ⟨removed ++ [s.buffer.slots s.buffer.out], hlog.step trivial (hnext.trans ?_)⟩
        simp only [State.workerAt, hb, hmove.added]
    | spuriousTraversal hu => cases hu <;> exact same rfl rfl
    | spuriousWorker hu => cases hu <;> exact same rfl rfl

/-- After any run the buffer holds what the queue of `size - 1` tasks holds after
the same run; an add finds a slot that is not in use, and what is removed is the
oldest task. The buffer of the program goes through such runs. -/
theorem buffer_refines_fifo {size : ℕ} (hsize : 2 ≤ size) :
    (∀ (r : RingBuffer Task) (log : QueueLog Task), (taskBufferLog size).Reachable (r, log) →
      ∃ pending, (fifoLog (size - 1)).Reachable (pending, log) ∧
        (∀ i (h : i < pending.length), r.slots ((r.out + i) % size) = pending[i]) ∧
        (r.out + pending.length) % size = r.inp ∧
        pending.length = (r.inp + size - r.out) % size ∧ pending.length ≤ size - 1 ∧
        (∀ i < pending.length, (r.out + i) % size ≠ r.inp) ∧
        (∀ r', (taskBuffer size).next r .take = some r' →
          pending.head? = some (r.slots r.out)) ∧
        log.removed ++ pending = log.added) ∧
    (∀ (threads : ℕ) (s : State), (copier size threads).Reachable s →
      ∃ removed, (taskBufferLog size).Reachable
        (s.buffer, ⟨s.added.map Added.task, removed⟩)) := by
  refine ⟨fun r log hr => ?_, fun threads s hr => copier_buffer (by omega) hr⟩
  obtain ⟨⟨pending, log'⟩, hfifo, hholds, hlog⟩ := (taskBuffer_simulation hsize).reachable hr
  obtain rfl : log = log' := hlog
  obtain ⟨hremoved, hlength⟩ := (fifoLog_inductive (size - 1)).holds hfifo
  have hholds : r.Holds size pending := hholds
  refine ⟨pending, hfifo, hholds.slot, hholds.inp_eq.symm, hholds.length_eq, hlength,
    fun i hi => hholds.inp_free hi, fun r' hn => ?_, hremoved⟩
  simp only [taskBuffer] at hn
  split at hn
  · contradiction
  · next hne =>
    cases pending with
    | nil => exact absurd (hholds.empty_iff.mpr rfl) hne
    | cons task rest => rw [hholds.head, List.head?_cons]

def threeTasks : RingBuffer Task × QueueLog Task :=
  ((taskBufferLog 3).run (⟨fun _ => ⟨0, 0, .mainDest⟩, 0, 0⟩, ⟨[], []⟩)
    [.put ⟨3, 4, .destPath 0⟩, .put ⟨5, 6, .destPath 0⟩, .take, .put ⟨7, 8, .destPath 0⟩]).get rfl

theorem threeTasks_fifo : ∃ pending : List Task, pending.length = 2 ∧
    ⟨3, 4, .destPath 0⟩ :: pending =
      [⟨3, 4, .destPath 0⟩, ⟨5, 6, .destPath 0⟩, ⟨7, 8, .destPath 0⟩] := by
  have hr : (taskBufferLog 3).Reachable threeTasks :=
    Machine.Reachable.run (.start ⟨⟨rfl, rfl⟩, rfl⟩) _ (Option.some_get _).symm
  obtain ⟨pending, -, -, -, hlength, -, -, -, hremoved⟩ :=
    (buffer_refines_fifo (by omega)).1 threeTasks.1 threeTasks.2 hr
  exact ⟨pending, hlength, hremoved⟩

end AdvancedCProjects.Copier
