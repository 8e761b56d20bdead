import AdvancedCProjects.Copier.Progress

/-!
# When the task buffer is full (program.c:382-409, 480-491)

`add_task_to_buffer` tells from the two indices that the buffer is full. The tasks
that are pending are counted without them: those that were added and that no worker
has taken.
-/

namespace AdvancedCProjects.Copier
open Base

def Handling.isCopied : Handling → Bool
  | .copied _ => true
  | .closed _ => false

/-- The worker has taken a task and not begun to copy it. -/
def WorkerPc.isCopy : WorkerPc → Bool
  | .copy _ => true
  | _ => false

/-- The tasks that workers have taken. -/
def State.taken (s : State) : ℕ :=
  s.handled.countP Handling.isCopied + s.workers.countP WorkerPc.isCopy

def State.pendingTasks (s : State) : ℕ := s.added.length - s.taken

/-- `add_task_to_buffer` has found the buffer full and is about to sleep. -/
def State.Waits (s : State) : Prop :=
  ∃ (i : ℕ) (th : Traversal) (file : OpenFile), s.traversals[i]? = some th ∧ th.pc = .wait file

section Count
variable {size threads i : ℕ} {s t u : State} {th th' : Traversal} {pc pc' : WorkerPc}
  {tpc tpc' : TraversalPc}

theorem countP_handling (tasks : List Task) :
    (tasks.flatMap Task.handling).countP Handling.isCopied = tasks.length := by
  induction tasks with
  | nil => rfl
  | cons task tasks ih =>
    rw [List.flatMap_cons, List.countP_append, ih, List.length_cons, Nat.add_comm]
    rfl

theorem countP_handlingOf (added : List Added) :
    (handlingOf added).countP Handling.isCopied = added.length := by
  have htasks := countP_handling (added.map Added.task)
  rwa [List.flatMap_map, List.length_map] at htasks

theorem countP_todo (workers : List WorkerPc) :
    (workers.flatMap WorkerPc.todo).countP Handling.isCopied =
      workers.countP WorkerPc.isCopy := by
  induction workers with
  | nil => rfl
  | cons pc workers ih =>
    rw [List.flatMap_cons, List.countP_append, ih, List.countP_cons, Nat.add_comm]
    cases pc <;> rfl

theorem Tallied.pending (h : Tallied size s) :
    ∃ pending, s.buffer.Holds size pending ∧ pending.length = s.pendingTasks := by
  obtain ⟨pending, hholds, heq⟩ := h
  have hcount := congrArg (List.countP Handling.isCopied) heq
  rw [List.countP_append, List.countP_append, countP_todo, countP_handling,
    countP_handlingOf] at hcount
  refine ⟨pending, hholds, ?_⟩
  rw [State.pendingTasks, State.taken]
  omega

/-- The test of `add_task_to_buffer` succeeds when all slots but one are in use. -/
theorem Tallied.full_iff (h : Tallied size s) :
    (s.buffer.inp + 1) % size = s.buffer.out ↔ s.pendingTasks + 1 = size := by
  obtain ⟨pending, hholds, hlength⟩ := h.pending
  rw [hholds.full_iff, hlength]

/-! ### What the producer has found stays so -/

def Blocked (size : ℕ) (s : State) : Prop :=
  s.Waits → (s.buffer.inp + 1) % size = s.buffer.out

theorem Blocked.frame (h : Blocked size s) (hbuffer : t.buffer = s.buffer)
    (hwaits : t.Waits → s.Waits) : Blocked size t := by
  intro hw
  rw [hbuffer]
  exact h (hwaits hw)

theorem State.WakesTraversal.waits (h : s.WakesTraversal u) (hts : t.traversals = u.traversals)
    (hw : t.Waits) : s.Waits := by
  obtain ⟨i, th, file, hth, hpc⟩ := hw
  rw [hts] at hth
  rcases h.get hth with ⟨file', hwoken⟩ | hold
  · rw [hpc] at hwoken
    contradiction
  · exact ⟨i, th, file, hold, hpc⟩

theorem Locked.waits_alone (h : Locked s) (hw : s.Waits) (hpc : s.workers[i]? = some pc) :
    pc.holds = false := by
  obtain ⟨k, th, file, hth, hwait⟩ := hw
  rw [Bool.eq_false_iff]
  intro hholds
  exact h.apart hpc hth hholds (by rw [hwait]; rfl)

theorem Blocked.work (h : Blocked size s) (hl : Locked s) (hpc : s.workers[i]? = some pc)
    (hmove : WorkerMove size s i pc pc' u) : Blocked size (u.workerAt i pc') := by
  obtain ⟨-, -, v, hv, -, hts⟩ := hmove.wakes
  intro hw
  have hold : s.Waits := hv.waits hts hw
  have hout := hl.waits_alone hold hpc
  rcases hmove.buffer with hsame | ⟨htake, -⟩
  · exact h.frame hsame (fun _ => hold) hw
  · rw [htake] at hout
    contradiction

theorem Blocked.traverse (h : Blocked size s) (hl : Locked s) (hth : s.traversals[i]? = some th)
    (hmove : TraversalMove size s i th th.pc th'.pc u) : Blocked size (u.traversalAt i th') := by
  intro ⟨j, x, file, hj, hpc⟩
  rcases hmove.get hj with rfl | ⟨hji, hold⟩ | hnew
  · obtain ⟨hbuffer, hfull⟩ := hmove.waits hpc
    show (u.buffer.inp + 1) % size = u.buffer.out
    rwa [hbuffer]
  · have hfull := h ⟨j, x, file, hold, hpc⟩
    show (u.buffer.inp + 1) % size = u.buffer.out
    rcases hmove.buffer with ⟨hbuffer, -⟩ | ⟨file', a, hadd, -⟩
    · rwa [hbuffer]
    -- only one thread is in the critical section
    · exact absurd (hl.traversals.unique traversal_injective hold hth (by rw [hpc]; rfl)
        (by rw [hadd]; rfl)) hji
  · rw [hpc] at hnew
    contradiction

theorem Blocked.step (h : Blocked size s) (hl : Locked s) (hstep : Step size threads s t) :
    Blocked size t := by
  cases hstep with
  | main hmove =>
    generalize s.main = mpc at hmove
    cases hmove with
    | createRoot =>
      intro ⟨j, x, file, hj, hpc⟩
      rw [List.mem_singleton.mp (List.mem_of_getElem? hj)] at hpc
      contradiction
    | _ => exact h.frame rfl id
  | traverse hth _ _ hmove => exact h.traverse hl hth hmove
  | work hpc hmove => exact h.work hl hpc hmove
  | spuriousTraversal hu =>
    have hwaits := hu.waits (t := t) rfl
    cases hu <;> exact h.frame rfl hwaits
  | spuriousWorker hu => cases hu <;> exact h.frame rfl id

end Count

theorem blocked_inductive {size : ℕ} (hsize : 0 < size) (threads : ℕ) :
    (copier size threads).Inductive (fun _ _ => True)
      fun s => Invariant size s ∧ Blocked size s := by
  refine (copier_inductive hsize threads).and (fun s hs => ?_) fun s a t hi _ h _ hn => ?_
  · intro ⟨i, th, file, hth, _⟩
    rw [hs.traversals] at hth
    contradiction
  · exact h.step hi.locked (copier_step hn)

theorem pending_of_waits {size threads : ℕ} (hsize : 0 < size) {s : State}
    (hr : (copier size threads).Reachable s) (hw : s.Waits) : s.pendingTasks + 1 = size := by
  obtain ⟨hi, hblocked⟩ := (blocked_inductive hsize threads).holds hr
  exact hi.books.tallied.full_iff.mp (hblocked hw)

/-- A producer that waits has found all slots but one in use, so the buffer is not
empty. -/
theorem waits_at_capacity {size threads : ℕ} (hsize : 2 ≤ size) {s : State}
    (hr : (copier size threads).Reachable s) (hw : s.Waits) :
    s.pendingTasks = size - 1 ∧ 0 < s.pendingTasks := by
  have hpending := pending_of_waits (by omega) hr hw
  omega

def untilTest (name : Bytes) (srcFd destFd : ℕ) : List Reply :=
  [.entry name, .mode .regular, .fd srcFd, .fd destFd, .ok, .ok, .ok]

def untilEntry : List Reply := [.ok, .wake none, .ok, .ok, .ok, .ok]

/-- The first file fills the buffer of two slots, and the producer waits with the
second. -/
def secondWaits : List Action :=
  .main .ok :: (Reply.ok :: untilTest (utf8 "a") 3 4 ++ untilEntry ++
    untilTest (utf8 "b") 5 6).map (.traverse 0)

def secondWaitsState : State := ((copier 2 1).run .init secondWaits).get (by decide)

theorem secondWaits_reachable : (copier 2 1).Reachable secondWaitsState :=
  Machine.Reachable.run (.start State.init_start) secondWaits (Option.some_get _).symm

theorem secondWaits_waits : secondWaitsState.Waits := by
  have hpcs : secondWaitsState.traversals.map Traversal.pc = [.wait ⟨utf8 "b", 5, 6⟩] := by decide
  obtain ⟨th, hth, hpc⟩ := List.map_eq_singleton_iff.mp hpcs
  exact ⟨0, th, _, by rw [hth]; rfl, hpc⟩

theorem secondWaits_at_capacity :
    secondWaitsState.pendingTasks = 1 ∧ 0 < secondWaitsState.pendingTasks :=
  waits_at_capacity le_rfl secondWaits_reachable secondWaits_waits

/-- With one slot the buffer is full and empty at once. -/
def firstWaits : List Action :=
  .main .ok :: (Reply.ok :: untilTest (utf8 "a") 3 4).map (.traverse 0)

def firstWaitsState : State := ((copier 1 1).run .init firstWaits).get (by decide)

theorem firstWaits_reachable : (copier 1 1).Reachable firstWaitsState :=
  Machine.Reachable.run (.start State.init_start) firstWaits (Option.some_get _).symm

theorem firstWaits_waits : firstWaitsState.Waits := by
  have hpcs : firstWaitsState.traversals.map Traversal.pc = [.wait ⟨utf8 "a", 3, 4⟩] := by decide
  obtain ⟨th, hth, hpc⟩ := List.map_eq_singleton_iff.mp hpcs
  exact ⟨0, th, _, by rw [hth]; rfl, hpc⟩

def WaitsWhenFull (size threads : ℕ) : Prop :=
  ∀ s, (copier size threads).Reachable s → s.Waits → s.pendingTasks = size

theorem waits_early : ¬ WaitsWhenFull 2 1 ∧ ¬ WaitsWhenFull 1 1 := by
  constructor
  · intro h
    have hfull := h secondWaitsState secondWaits_reachable secondWaits_waits
    exact absurd hfull (by decide)
  · intro h
    have hfull := h firstWaitsState firstWaits_reachable firstWaits_waits
    exact absurd hfull (by decide)

end AdvancedCProjects.Copier
