import AdvancedCProjects.Base.Lists
import AdvancedCProjects.Copier.Threads

/-!
# Every task once (program.c:171-329, 382-409, 545-569)

The workers hold `buffer_mutex` from the test of the buffer to the closing of
the descriptors, so what they did, what one of them has in hand and what is in
the buffer make up the tasks that were added. A worker leaves when all of it is
done, and then nothing is added any more.
-/

namespace AdvancedCProjects.Copier
open Base

def handlingOf (added : List Added) : List Handling := added.flatMap fun a => a.task.handling

/-- Everything is done and nothing is coming. -/
structure Over (s : State) : Prop where
  done : s.done = true
  empty : s.buffer.inp = s.buffer.out
  handled : s.handled = handlingOf s.added

/-- What a worker knows at a statement. -/
def WorkerOk (s : State) : WorkerPc → Prop
  | .exitTest => s.done = true ∨ s.buffer.inp ≠ s.buffer.out
  | .take => s.buffer.inp ≠ s.buffer.out
  | .exitUnlock | .exitSignal | .exited => Over s
  | _ => True

def TraversalOk (size : ℕ) (s : State) : TraversalPc → Prop
  | .add _ => (s.buffer.inp + 1) % size ≠ s.buffer.out
  | _ => True

/-- The tasks added are the ones that were handled, the one in hand and those in
the buffer. -/
def Tallied (size : ℕ) (s : State) : Prop :=
  ∃ pending, s.buffer.Holds size pending ∧
    s.handled ++ s.workers.flatMap WorkerPc.todo ++ pending.flatMap Task.handling =
      handlingOf s.added

structure Books (size : ℕ) (s : State) : Prop where
  workers : ∀ (j : ℕ) (pc : WorkerPc), s.workers[j]? = some pc → WorkerOk s pc
  traversals : ∀ (j : ℕ) (th : Traversal), s.traversals[j]? = some th → TraversalOk size s th.pc
  tallied : Tallied size s

section Books
variable {size threads i : ℕ} {s t u : State} {th th' : Traversal} {pc pc' : WorkerPc}
  {tpc tpc' : TraversalPc} {mpc' : MainPc}

theorem WorkerOk.mono (h : WorkerOk s pc) (hdone : s.done = true → u.done = true)
    (hbuffer : pc.holds = true → u.buffer = s.buffer) (hover : Over s → Over u) :
    WorkerOk u pc := by
  cases pc with
  | exitTest =>
    have hb := hbuffer rfl
    simp only [WorkerOk, hb] at h ⊢
    exact h.imp_left hdone
  | take =>
    have hb := hbuffer rfl
    simpa only [WorkerOk, hb] using h
  | exitUnlock | exitSignal | exited => exact hover h
  | _ => trivial

theorem TraversalOk.mono (h : TraversalOk size s tpc)
    (hbuffer : tpc.holds = true → u.buffer = s.buffer) : TraversalOk size u tpc := by
  cases tpc with
  | add file =>
    have hb := hbuffer rfl
    simpa only [TraversalOk, hb] using h
  | _ => trivial

theorem WorkerOk.of_todo (h : pc.todo ≠ []) : WorkerOk s pc := by
  cases pc <;> trivial

theorem TraversalOk.of_outside (h : tpc.holds = false) : TraversalOk size s tpc := by
  cases tpc <;> trivial

theorem WorkerPc.todo_of_outside (h : pc.holds = false) : pc.todo = [] := by
  cases pc <;> first | rfl | contradiction

theorem Locked.alone (h : Locked s) (hpc : s.workers[i]? = some pc) (hh : pc.holds = true) (j : ℕ)
    (pc' : WorkerPc) (hj : s.workers[j]? = some pc') (hne : j ≠ i) : pc'.todo = [] := by
  apply WorkerPc.todo_of_outside
  rw [Bool.eq_false_iff]
  intro hh'
  exact hne (h.workers.unique worker_injective hj hpc hh' hh)

theorem Over.idle (h : Over s) (ht : Tallied size s) (hpc : s.workers[i]? = some pc) :
    pc.todo = [] := by
  obtain ⟨pending, -, heq⟩ := ht
  rw [← h.handled, List.append_assoc, List.append_right_eq_self] at heq
  have hnil := (List.append_eq_nil_iff.mp heq).1
  exact List.flatMap_eq_nil_iff.mp hnil pc (List.mem_of_getElem? hpc)

/-! ### Workers -/

theorem WorkerMove.done (h : WorkerMove size s i pc pc' u) : u.done = s.done := by
  cases h with
  | signal hu | exitSignal hu => cases hu <;> rfl
  | _ => rfl

theorem WorkerMove.added (h : WorkerMove size s i pc pc' u) : u.added = s.added := by
  cases h with
  | signal hu | exitSignal hu => cases hu <;> rfl
  | _ => rfl

theorem WorkerMove.buffer (h : WorkerMove size s i pc pc' u) :
    u.buffer = s.buffer ∨ pc = .take ∧ pc' = .copy (s.buffer.slots s.buffer.out) ∧
      u.buffer = s.buffer.drop size ∧ u.handled = s.handled := by
  cases h with
  | take => exact .inr ⟨rfl, rfl, rfl, rfl⟩
  | signal hu | exitSignal hu => cases hu <;> exact .inl rfl
  | _ => exact .inl rfl

/-- Apart from taking a task, a move does the first thing that is left to do, or
nothing. -/
theorem WorkerMove.handled (h : WorkerMove size s i pc pc' u) (hpc : pc ≠ .take) :
    u.handled = s.handled ∧ pc'.todo = pc.todo ∨
      pc.holds = true ∧ ∃ x, pc.todo = x :: pc'.todo ∧ u.handled = s.handled ++ [x] := by
  cases h with
  | enter hpc => rcases hpc with rfl | rfl <;> exact .inl ⟨rfl, rfl⟩
  | take => exact absurd rfl hpc
  | copying m stats written _ _ _ htodo => exact .inl ⟨rfl, htodo⟩
  | copy task | closeSrc task | closeDest task => exact .inr ⟨rfl, _, rfl, rfl⟩
  | signal hu | exitSignal hu => cases hu <;> exact .inl ⟨rfl, rfl⟩
  | _ => exact .inl ⟨rfl, rfl⟩

theorem Tallied.work (h : Tallied size s) (hl : Locked s) (hpc : s.workers[i]? = some pc)
    (hok : WorkerOk s pc) (hmove : WorkerMove size s i pc pc' u) :
    Tallied size (u.workerAt i pc') := by
  obtain ⟨pending, hholds, heq⟩ := h
  have hadded := hmove.added
  have hworkers := hmove.wakes.2.1
  simp only [Tallied, State.workerAt, hadded, hworkers]
  by_cases htake : pc = .take
  · subst htake
    have halone := hl.alone hpc rfl
    cases hmove with
    | take =>
      cases pending with
      | nil => exact absurd (hholds.empty_iff.mpr rfl) hok
      | cons task pending =>
        refine ⟨pending, hholds.drop, ?_⟩
        rw [flatMap_alone hpc halone] at heq
        rw [flatMap_set_alone hpc halone, hholds.head, ← heq]
        simp [WorkerPc.todo]
    | copying _ _ _ _ _ htodo => exact absurd rfl htodo
    | enter hpc => rcases hpc with hpc | hpc <;> contradiction
  · have hbuffer := hmove.buffer.resolve_right fun h => htake h.1
    refine ⟨pending, hbuffer ▸ hholds, ?_⟩
    rcases hmove.handled htake with ⟨hh, htodo⟩ | ⟨hin, x, htodo, hh⟩
    · rw [flatMap_set_congr hpc htodo, hh, heq]
    · have halone := hl.alone hpc hin
      rw [flatMap_alone hpc halone, htodo] at heq
      rw [flatMap_set_alone hpc halone, hh, ← heq]
      simp

theorem Over.work (h : Over s) (ht : Tallied size s) (hpc : s.workers[i]? = some pc)
    (hok : WorkerOk s pc) (hmove : WorkerMove size s i pc pc' u) : Over u := by
  have htake : pc ≠ .take := by
    rintro rfl
    exact hok h.empty
  have hidle := h.idle ht hpc
  have hbuffer := hmove.buffer.resolve_right fun h => htake h.1
  have hhandled : u.handled = s.handled := by
    rcases hmove.handled htake with ⟨hh, -⟩ | ⟨-, x, htodo, -⟩
    · exact hh
    · rw [hidle] at htodo
      contradiction
  exact ⟨hmove.done ▸ h.done, hbuffer ▸ h.empty, by rw [hhandled, hmove.added, h.handled]⟩

theorem Tallied.over (h : Tallied size s) (hl : Locked s) (hpc : s.workers[i]? = some .exitTest)
    (hd : s.done = true) (he : s.buffer.inp = s.buffer.out) : Over s := by
  obtain ⟨pending, hholds, heq⟩ := h
  obtain rfl := hholds.empty_iff.mp he
  rw [flatMap_alone hpc (hl.alone hpc rfl)] at heq
  exact ⟨hd, he, by simpa [WorkerPc.todo] using heq⟩

theorem Books.workerOk (h : Books size s) (hl : Locked s) (hpc : s.workers[i]? = some pc)
    (hmove : WorkerMove size s i pc pc' u) : WorkerOk u pc' := by
  have hok := h.workers i pc hpc
  cases hmove with
  | pass hpass => exact hpass
  | finish hd he => exact h.tallied.over hl hpc hd he
  | proceed hgo =>
    have hok : s.done = true ∨ s.buffer.inp ≠ s.buffer.out := hok
    exact hok.elim (fun hd he => hgo ⟨hd, he⟩) id
  | copying m stats written _ _ htodo heq => exact .of_todo (heq ▸ htodo)
  | exitUnlock => exact ⟨hok.done, hok.empty, hok.handled⟩
  | exitSignal hu => exact Over.work hok h.tallied hpc hok (.exitSignal hu)
  | _ => trivial

theorem State.WakesTraversal.get {j : ℕ} (hu : s.WakesTraversal u)
    (hj : u.traversals[j]? = some th) :
    (∃ file, th.pc = .woken file) ∨ s.traversals[j]? = some th := by
  cases hu with
  | nobody => exact .inr hj
  | @one k th' file hk hpc =>
    by_cases hkj : k = j
    · subst hkj
      rw [List.getElem?_set_self (List.getElem?_eq_some_iff.mp hk).1] at hj
      cases hj
      exact .inl ⟨file, rfl⟩
    · rw [List.getElem?_set_ne hkj] at hj
      exact .inr hj

theorem State.WakesWorker.get {j : ℕ} (hu : s.WakesWorker u) (hj : u.workers[j]? = some pc) :
    pc = .woken ∨ s.workers[j]? = some pc := by
  cases hu with
  | nobody => exact .inr hj
  | @one k hk =>
    by_cases hkj : k = j
    · subst hkj
      rw [List.getElem?_set_self (List.getElem?_eq_some_iff.mp hk).1] at hj
      exact .inl (Option.some.inj hj).symm
    · rw [List.getElem?_set_ne hkj] at hj
      exact .inr hj

theorem State.WakesWorker.todo (hu : s.WakesWorker u) :
    u.workers.flatMap WorkerPc.todo = s.workers.flatMap WorkerPc.todo := by
  cases hu with
  | nobody => rfl
  | one hk => exact flatMap_set_congr hk rfl

theorem Books.work (h : Books size s) (hl : Locked s) (hpc : s.workers[i]? = some pc)
    (hmove : WorkerMove size s i pc pc' u) : Books size (u.workerAt i pc') := by
  have hi := (List.getElem?_eq_some_iff.mp hpc).1
  obtain ⟨-, hworkers, v, hv, hvm, hts⟩ := hmove.wakes
  have hbuffer (hne : s.bufferMutex ≠ some (.worker i)) : u.buffer = s.buffer := by
    refine hmove.buffer.resolve_right fun htake => hne (hl.workers.eq_of_holds hpc ?_)
    rw [htake.1]
    rfl
  refine ⟨?_, ?_, h.tallied.work hl hpc (h.workers i pc hpc) hmove⟩
  · intro j pc'' hj
    have hok : WorkerOk u pc'' := by
      simp only [State.workerAt, hworkers] at hj
      by_cases hij : i = j
      · subst hij
        rw [List.getElem?_set_self hi] at hj
        cases hj
        exact h.workerOk hl hpc hmove
      · rw [List.getElem?_set_ne hij] at hj
        refine (h.workers j pc'' hj).mono (fun hd => hmove.done ▸ hd) (fun hh => ?_)
          fun ho => ho.work h.tallied hpc (h.workers i pc hpc) hmove
        apply hbuffer
        rw [hl.workers.eq_of_holds hj hh]
        exact fun heq => hij (Thread.worker.inj (Option.some.inj heq)).symm
    exact hok.mono id (fun _ => rfl) fun ho => ⟨ho.done, ho.empty, ho.handled⟩
  · intro j th hj
    simp only [State.workerAt, hts] at hj
    rcases hv.get hj with ⟨file, hw⟩ | hj
    · rw [hw]
      trivial
    · refine (h.traversals j th hj).mono fun hh => ?_
      apply hbuffer
      rw [hl.traversals.eq_of_holds hj hh]
      exact fun heq => worker_ne_traversal i j (Option.some.inj heq).symm

/-! ### The traversal and `main` -/

theorem TraversalMove.handled (h : TraversalMove size s i th tpc tpc' u) :
    u.done = s.done ∧ u.handled = s.handled := by
  cases h with
  | signal hu => cases hu <;> exact ⟨rfl, rfl⟩
  | _ => exact ⟨rfl, rfl⟩

theorem TraversalMove.buffer (h : TraversalMove size s i th tpc tpc' u) :
    u.buffer = s.buffer ∧ u.added = s.added ∨ ∃ file a, tpc = .add file ∧ tpc' = .signal ∧
      a.task.srcFd = file.srcFd ∧ a.task.destFd = file.destFd ∧
      u.buffer = s.buffer.put size a.task ∧ u.added = s.added ++ [a] := by
  cases h with
  | add file => exact .inr ⟨file, _, rfl, rfl, rfl, rfl, rfl, rfl⟩
  | signal hu => cases hu <;> exact .inl ⟨rfl, rfl⟩
  | _ => exact .inl ⟨rfl, rfl⟩

theorem TraversalMove.ok (h : TraversalMove size s i th tpc tpc' u) : TraversalOk size u tpc' := by
  cases h with
  | step m stats hl => exact .of_outside hl.outside'
  | pass file hroom => exact hroom
  | _ => trivial

theorem TraversalMove.get {j : ℕ} {th'' : Traversal} (h : TraversalMove size s i th tpc tpc' u)
    (hj : (u.traversals.set i th')[j]? = some th'') :
    th'' = th' ∨ j ≠ i ∧ s.traversals[j]? = some th'' ∨ th''.pc = .opendir := by
  by_cases hij : i = j
  · subst hij
    obtain ⟨hlt, rfl⟩ := List.getElem?_eq_some_iff.mp hj
    exact .inl (List.getElem_set_self hlt)
  · rw [List.getElem?_set_ne hij] at hj
    obtain ⟨-, -, hts | hts⟩ := h.wakes
    · exact .inr (.inl ⟨fun he => hij he.symm, hts ▸ hj⟩)
    · rw [hts, List.getElem?_append] at hj
      split at hj
      · exact .inr (.inl ⟨fun he => hij he.symm, hj⟩)
      · rw [List.getElem?_singleton] at hj
        split at hj
        · cases hj
          exact .inr (.inr rfl)
        · contradiction

theorem Tallied.traverse (h : Tallied size s) (hok : TraversalOk size s tpc)
    (hmove : TraversalMove size s i th tpc tpc' u) : Tallied size (u.traversalAt i th') := by
  obtain ⟨pending, hholds, heq⟩ := h
  obtain ⟨-, hhandled⟩ := hmove.handled
  obtain ⟨-, ⟨v, hv, -, hws⟩, -⟩ := hmove.wakes
  simp only [Tallied, State.traversalAt, hhandled, hws, hv.todo]
  rcases hmove.buffer with ⟨hb, ha⟩ | ⟨file, a, hpc, -, -, -, hb, ha⟩
  · exact ⟨pending, hb ▸ hholds, by rw [heq, ha]⟩
  · subst hpc
    refine ⟨pending ++ [a.task], hb ▸ hholds.put hok, ?_⟩
    simp only [ha, handlingOf, List.flatMap_append, ← List.append_assoc] at heq ⊢
    simp only [heq, List.flatMap_cons, List.flatMap_nil]

theorem Books.traverse (h : Books size s) (hl : Locked s) (hs : Serial s)
    (hth : s.traversals[i]? = some th) (hmove : TraversalMove size s i th th.pc th'.pc u) :
    Books size (u.traversalAt i th') := by
  have hi := (List.getElem?_eq_some_iff.mp hth).1
  obtain ⟨hdone, -⟩ := hmove.handled
  obtain ⟨-, ⟨v, hv, hvm, hws⟩, hts⟩ := hmove.wakes
  have hbuffer (hne : s.bufferMutex ≠ some (.traversal i)) : u.buffer = s.buffer := by
    rcases hmove.buffer with ⟨hb, -⟩ | ⟨file, a, hpc, -⟩
    · exact hb
    · refine absurd (hl.traversals.eq_of_holds hth ?_) hne
      rw [hpc]
      rfl
  refine ⟨?_, ?_, h.tallied.traverse (h.traversals i th hth) hmove⟩
  · intro j pc hj
    simp only [State.traversalAt, hws] at hj
    rcases hv.get hj with rfl | hj
    · trivial
    · refine (h.workers j pc hj).mono (fun hd => hdone.trans hd) (fun hh => ?_) fun ho => ?_
      · apply hbuffer
        rw [hl.workers.eq_of_holds hj hh]
        exact fun heq => worker_ne_traversal j i (Option.some.inj heq)
      -- no thread runs any more
      · exact absurd (hs.all_exited ho.done hth) hmove.running
  · intro j th'' hj
    have hok : TraversalOk size u th''.pc := by
      rcases hmove.get hj with rfl | ⟨hji, hj⟩ | hstart
      · exact hmove.ok
      · refine (h.traversals j th'' hj).mono fun hh => ?_
        apply hbuffer
        rw [hl.traversals.eq_of_holds hj hh]
        exact fun heq => hji (Thread.traversal.inj (Option.some.inj heq))
      · rw [hstart]
        trivial
    exact hok.mono fun _ => rfl

theorem Books.frame (h : Books size s) (hd : s.done = true → u.done = true)
    (hb : u.buffer = s.buffer) (hh : u.handled = s.handled) (ha : u.added = s.added)
    (hw : ∀ (j : ℕ) (pc : WorkerPc), u.workers[j]? = some pc → WorkerOk s pc)
    (ht : ∀ (j : ℕ) (th : Traversal), u.traversals[j]? = some th → TraversalOk size s th.pc)
    (htodo : u.workers.flatMap WorkerPc.todo = s.workers.flatMap WorkerPc.todo) :
    Books size u where
  workers j pc hj := (hw j pc hj).mono hd (fun _ => hb) fun ho =>
    ⟨hd ho.done, hb ▸ ho.empty, by rw [hh, ha, ho.handled]⟩
  traversals j th hj := (ht j th hj).mono fun _ => hb
  tallied := by
    obtain ⟨pending, hholds, heq⟩ := h.tallied
    exact ⟨pending, hb ▸ hholds, by rw [hh, ha, htodo, heq]⟩

theorem Books.wakesTraversal (h : Books size s) (hu : s.WakesTraversal u) : Books size u := by
  have ht (j : ℕ) (th : Traversal) (hj : u.traversals[j]? = some th) :
      TraversalOk size s th.pc := by
    rcases hu.get hj with ⟨file, hw⟩ | hj
    · rw [hw]
      trivial
    · exact h.traversals j th hj
  cases hu with
  | nobody => exact h
  | one => exact h.frame id rfl rfl rfl h.workers ht rfl

theorem Books.wakesWorker (h : Books size s) (hu : s.WakesWorker u) : Books size u := by
  have hw (j : ℕ) (pc : WorkerPc) (hj : u.workers[j]? = some pc) : WorkerOk s pc := by
    rcases hu.get hj with rfl | hj
    · trivial
    · exact h.workers j pc hj
  have htodo := hu.todo
  cases hu with
  | nobody => exact h
  | one => exact h.frame id rfl rfl rfl hw h.traversals htodo

theorem WorkerOk.wake (h : WorkerOk s pc) : WorkerOk s pc.wake := by
  cases pc <;> exact h

theorem WorkerPc.todo_wake (pc : WorkerPc) : pc.wake.todo = pc.todo := by
  cases pc <;> rfl

theorem Books.main (h : Books size s) (hmove : MainMove threads s s.main mpc' u) :
    Books size (u.mainAt mpc') := by
  generalize hm : s.main = mpc at hmove
  cases hmove with
  | createRoot =>
    refine h.frame id rfl rfl rfl h.workers ?_ rfl
    intro j th hj
    obtain rfl : th = _ := List.mem_singleton.mp (List.mem_of_getElem? hj)
    trivial
  | createWorker =>
    refine h.frame id rfl rfl rfl ?_ h.traversals (by simp [State.mainAt, WorkerPc.todo])
    intro j pc hj
    rcases List.mem_append.mp (List.mem_of_getElem? hj) with hmem | hmem
    · obtain ⟨k, hk⟩ := List.mem_iff_getElem?.mp hmem
      exact h.workers k pc hk
    · obtain rfl := List.mem_singleton.mp hmem
      trivial
  | broadcast =>
    refine h.frame id rfl rfl rfl ?_ h.traversals ?_
    · intro j pc hj
      simp only [State.mainAt, List.getElem?_map, Option.map_eq_some_iff] at hj
      obtain ⟨pc, hj, rfl⟩ := hj
      exact (h.workers j pc hj).wake
    · simp only [State.mainAt, List.flatMap_map, WorkerPc.todo_wake]
  | setDone => exact h.frame (fun _ => rfl) rfl rfl rfl h.workers h.traversals rfl
  | _ => exact h.frame id rfl rfl rfl h.workers h.traversals rfl

theorem Books.step (h : Books size s) (hl : Locked s) (hs : Serial s)
    (hstep : Step size threads s t) : Books size t := by
  cases hstep with
  | main hmove => exact h.main hmove
  | traverse hth _ _ hmove => exact h.traverse hl hs hth hmove
  | work hpc hmove => exact h.work hl hpc hmove
  | spuriousTraversal hu => exact h.wakesTraversal hu
  | spuriousWorker hu => exact h.wakesWorker hu

/-! ### Descriptors -/

def Handling.fd? : Handling → Option ℕ
  | .copied _ => none
  | .closed fd => some fd

def closings (hs : List Handling) : List ℕ := hs.filterMap Handling.fd?

/-- The open files are those of the tasks that are not closed yet and those that
the traversal has not added. -/
def Descriptors (s : State) : Prop :=
  ∀ fd, s.fds.count fd + (closings s.handled).count fd =
    (closings (handlingOf s.added)).count fd +
      (s.traversals.flatMap fun th => th.pc.fds).count fd

@[simp] theorem closings_append (hs hs' : List Handling) :
    closings (hs ++ hs') = closings hs ++ closings hs' := List.filterMap_append

@[simp] theorem closings_nil : closings [] = [] := rfl

@[simp] theorem closings_copied (task : Task) (hs : List Handling) :
    closings (.copied task :: hs) = closings hs := rfl

@[simp] theorem closings_closed (fd : ℕ) (hs : List Handling) :
    closings (.closed fd :: hs) = fd :: closings hs := rfl

theorem closings_handling (task : Task) :
    closings task.handling = [task.srcFd, task.destFd] := rfl

@[simp] theorem handlingOf_append (added : List Added) (a : Added) :
    handlingOf (added ++ [a]) = handlingOf added ++ a.task.handling := by
  simp [handlingOf]

theorem Tallied.closings_le (h : Tallied size s) (fd : ℕ) :
    (closings s.handled).count fd + (closings (s.workers.flatMap WorkerPc.todo)).count fd ≤
      (closings (handlingOf s.added)).count fd := by
  obtain ⟨pending, -, heq⟩ := h
  rw [← heq]
  simp only [closings_append, List.count_append]
  omega

theorem Descriptors.work (h : Descriptors s) (ht : Tallied size s)
    (hpc : s.workers[i]? = some pc) (hmove : WorkerMove size s i pc pc' u) :
    Descriptors (u.workerAt i pc') := by
  have close {file : ℕ} (htodo : Handling.closed file ∈ pc.todo) (fd : ℕ) :
      (s.fds.erase file).count fd + (closings (s.handled ++ [.closed file])).count fd =
        s.fds.count fd + (closings s.handled).count fd := by
    have hmem : file ∈ closings (s.workers.flatMap WorkerPc.todo) :=
      List.mem_filterMap.mpr
        ⟨_, List.mem_flatMap.mpr ⟨pc, List.mem_of_getElem? hpc, htodo⟩, rfl⟩
    have hle := ht.closings_le file
    have hpos := List.count_pos_iff.mpr hmem
    have hfile := h file
    simp only [closings_append, closings_closed, closings_nil, List.count_append,
      List.count_erase, List.count_singleton]
    by_cases heq : file = fd
    · subst heq
      simp only [BEq.rfl, if_true]
      omega
    · simp [heq]
  intro fd
  have hfd := h fd
  cases hmove with
  | closeSrc task =>
    have hmem : Handling.closed task.srcFd ∈ (WorkerPc.closeSrc task).todo := by
      simp [WorkerPc.todo]
    exact (close hmem fd).trans hfd
  | closeDest task =>
    have hmem : Handling.closed task.destFd ∈ (WorkerPc.closeDest task).todo := by
      simp [WorkerPc.todo]
    exact (close hmem fd).trans hfd
  | copy task => simpa only [State.workerAt, closings_append, closings_copied, closings_nil,
      List.append_nil] using hfd
  | signal hu | exitSignal hu =>
    cases hu with
    | nobody => exact hfd
    | one hj hpc' =>
      simp only [State.workerAt]
      rw [flatMap_set_congr hj (by rw [hpc']; rfl)]
      exact hfd
  | _ => exact hfd

theorem TraversalMove.fds (h : TraversalMove size s i th tpc tpc' u) (fd : ℕ)
    (hle : tpc.fds.count fd ≤ s.fds.count fd) :
    u.fds.count fd + (closings (handlingOf s.added)).count fd + tpc.fds.count fd =
      s.fds.count fd + (closings (handlingOf u.added)).count fd + tpc'.fds.count fd := by
  cases h with
  | step m stats hl =>
    rw [hl.fds]
  | closeSrc srcFd =>
    simp only [TraversalPc.fds, State.closeFd, List.count_erase, List.count_singleton,
      List.count_nil] at hle ⊢
    omega
  | add file =>
    simp only [TraversalPc.fds, handlingOf_append, closings_append, closings_handling,
      List.count_append, List.count_nil]
    omega
  | openSrc | openDest =>
    simp only [TraversalPc.fds, List.count_cons, List.count_nil]
    omega
  | enter file hpc =>
    rcases hpc with rfl | rfl <;> rfl
  | signal hu => cases hu <;> rfl
  | _ => rfl

theorem TraversalPc.fds_exited : TraversalPc.exited.fds = [] := rfl

theorem Descriptors.traverse (h : Descriptors s) (ht : Tallied size s)
    (hth : s.traversals[i]? = some th) (hmove : TraversalMove size s i th th.pc th'.pc u) :
    Descriptors (u.traversalAt i th') := by
  intro fd
  have hi := (List.getElem?_eq_some_iff.mp hth).1
  have hfd := h fd
  have hclosed := ht.closings_le fd
  have hown := count_flatMap_set (f := fun th => th.pc.fds) hth { th with pc := .exited } fd
  have hset := count_flatMap_set (f := fun th => th.pc.fds) hth th' fd
  simp only [TraversalPc.fds_exited, List.count_nil, Nat.add_zero] at hown
  have hmovefds := hmove.fds fd (by omega)
  obtain ⟨-, hhandled⟩ := hmove.handled
  have hts : ((u.traversals.set i th').flatMap fun th => th.pc.fds) =
      (s.traversals.set i th').flatMap fun th => th.pc.fds := by
    obtain ⟨-, -, hts | hts⟩ := hmove.wakes
    · rw [hts]
    · rw [hts, List.set_append_left _ _ hi, List.flatMap_append]
      exact List.append_nil _
  simp only [State.traversalAt, hts, hhandled]
  omega

theorem Descriptors.main (h : Descriptors s) (hl : Locked s)
    (hmove : MainMove threads s s.main mpc' u) : Descriptors (u.mainAt mpc') := by
  generalize hm : s.main = mpc at hmove
  cases hmove with
  | createRoot =>
    intro fd
    have hfd := h fd
    rw [hl.fresh hm] at hfd
    exact hfd
  | _ => exact h

theorem Descriptors.step (h : Descriptors s) (hl : Locked s) (ht : Tallied size s)
    (hstep : Step size threads s t) : Descriptors t := by
  cases hstep with
  | main hmove => exact h.main hl hmove
  | traverse hth _ _ hmove => exact h.traverse ht hth hmove
  | work hpc hmove => exact h.work ht hpc hmove
  | spuriousTraversal hu =>
    cases hu with
    | nobody => exact h
    | one hj hpc =>
      intro fd
      rw [flatMap_set_congr hj (by rw [hpc]; rfl)]
      exact h fd
  | spuriousWorker hu => cases hu <;> exact h

end Books

/-! ### Whole runs -/

structure Invariant (size : ℕ) (s : State) : Prop where
  locked : Locked s
  serial : Serial s
  books : Books size s
  descriptors : Descriptors s

theorem copier_inductive {size : ℕ} (hsize : 0 < size) (threads : ℕ) :
    (copier size threads).Inductive (fun _ _ => True) (Invariant size) where
  base s hs := by
    have hts (j : ℕ) (th : Traversal) (hj : s.traversals[j]? = some th) : False := by
      rw [hs.traversals] at hj
      contradiction
    have hws (j : ℕ) (pc : WorkerPc) (hj : s.workers[j]? = some pc) : False := by
      rw [hs.workers] at hj
      contradiction
    refine ⟨.start hs, .start hs,
      ⟨fun j pc hj => (hws j pc hj).elim, fun j th hj => (hts j th hj).elim, [], ?_, ?_⟩, ?_⟩
    · exact RingBuffer.holds_nil (by rw [hs.out]; exact hsize) (by rw [hs.inp, hs.out])
    · rw [hs.handled, hs.workers, hs.added]
      rfl
    · intro fd
      rw [hs.fds, hs.handled, hs.added, hs.traversals]
      rfl
  keep s a t h _ hn := by
    have hstep := copier_step hn
    exact ⟨h.locked.step hstep, h.serial.step h.locked hstep,
      h.books.step h.locked h.serial hstep, h.descriptors.step h.locked h.books.tallied hstep⟩

section Runs
variable {size threads : ℕ} {s t u : State}

theorem Over.step (h : Over s) (hi : Invariant size s) (hstep : Step size threads s t) :
    Over t ∧ t.added = s.added := by
  cases hstep with
  | @main mpc' u hmove =>
    have hsame : u.buffer = s.buffer ∧ u.handled = s.handled ∧ u.added = s.added ∧
        u.done = true := by
      generalize s.main = mpc at hmove
      cases hmove with
      | setDone => exact ⟨rfl, rfl, rfl, rfl⟩
      | _ => exact ⟨rfl, rfl, rfl, h.done⟩
    obtain ⟨hb, hh, ha, hd⟩ := hsame
    refine ⟨⟨hd, ?_, ?_⟩, ha⟩
    · simpa [State.mainAt, hb] using h.empty
    · simpa [State.mainAt, hh, ha] using h.handled
  | traverse hth _ _ hmove => exact absurd (hi.serial.all_exited h.done hth) hmove.running
  | work hpc hmove =>
    have ho := h.work hi.books.tallied hpc (hi.books.workers _ _ hpc) hmove
    exact ⟨⟨ho.done, ho.empty, ho.handled⟩, hmove.added⟩
  | spuriousTraversal hu => cases hu <;> exact ⟨⟨h.done, h.empty, h.handled⟩, rfl⟩
  | spuriousWorker hu => cases hu <;> exact ⟨⟨h.done, h.empty, h.handled⟩, rfl⟩

theorem Over.fds (h : Over s) (hi : Invariant size s) : s.fds = [] := by
  have hts : (s.traversals.flatMap fun th => th.pc.fds) = [] := by
    refine List.flatMap_eq_nil_iff.mpr fun th hth => ?_
    obtain ⟨k, hk⟩ := List.mem_iff_getElem?.mp hth
    rw [hi.serial.all_exited h.done hk]
    rfl
  refine List.eq_nil_iff_forall_not_mem.mpr fun fd hmem => ?_
  have hfd := hi.descriptors fd
  rw [hts, h.handled, List.count_nil] at hfd
  have hpos := List.count_pos_iff.mpr hmem
  omega

end Runs

/-- Once a worker has exited no task is added, and when all have exited every task
that was added has been copied once, and then each of its descriptors closed. -/
theorem tasks_handled_once {size threads : ℕ} (hsize : 2 ≤ size) (hthreads : 1 ≤ threads)
    {s : State} (h : (copier size threads).Reachable s) :
    (.exited ∈ s.workers → ∀ t, (copier size threads).Path₀ (fun _ _ => True) s t →
      t.added = s.added) ∧
    (s.workers = List.replicate threads .exited →
      s.handled = s.added.flatMap (fun a =>
        [.copied a.task, .closed a.task.srcFd, .closed a.task.destFd]) ∧ s.fds = []) := by
  have hind := copier_inductive (Nat.lt_of_lt_of_le Nat.two_pos hsize) threads
  have hi := hind.holds h
  have hover (hexit : .exited ∈ s.workers) : Over s := by
    obtain ⟨j, hj⟩ := List.mem_iff_getElem?.mp hexit
    exact hi.books.workers j .exited hj
  constructor
  · intro hexit t hpath
    have hkeep := hpath.keep (I := fun t => Invariant size t ∧ Over t ∧ t.added = s.added)
      ⟨hi, hover hexit, rfl⟩ fun u a v ⟨hu, ho, ha⟩ hok hn =>
        have hv := ho.step hu (copier_step hn)
        ⟨hind.keep u a v hu hok hn, hv.1, hv.2.trans ha⟩
    exact hkeep.2.2
  · intro hall
    have ho := hover (by rw [hall]; exact List.mem_replicate.mpr ⟨by omega, rfl⟩)
    exact ⟨ho.handled, ho.fds hi⟩

def State.init : State :=
  ⟨utf8 "src", utf8 "dst", false, ⟨fun _ => ⟨0, 0, .mainDest⟩, 0, 0⟩, none, none, .createRoot,
    [], [], ⟨0, 0, 0, 0, createHashtable⟩, [], [], [], 0⟩

theorem State.init_start : State.Start .init :=
  ⟨rfl, rfl, rfl, rfl, rfl, rfl, rfl, rfl, rfl, rfl, rfl, rfl, rfl⟩

/-- A directory with one file of one byte; the worker starts when the traversal
is over. -/
def oneFile : List Action :=
  List.replicate 3 (.main .ok) ++
  [.ok, .entry (utf8 "a"), .mode .regular, .fd 3, .fd 4, .ok, .ok, .ok, .ok, .wake none, .ok, .ok,
    .ok, .ok, .failure].map (.traverse 0) ++
  List.replicate 5 (.main .ok) ++
  [.ok, .ok, .ok, .ok, .ok, .count 1, .count 1, .ok, .ok, .ok, .count 0, .ok, .ok, .wake none, .ok,
    .ok, .ok, .ok, .ok, .wake none].map (.work 0)

def oneFileState : State := ((copier 2 1).run .init oneFile).get (by decide)

theorem oneFile_handled : oneFileState.handled =
    [.copied ⟨3, 4, .destPath 0⟩, .closed 3, .closed 4] ∧ oneFileState.fds = [] := by
  have hr : (copier 2 1).Reachable oneFileState :=
    Machine.Reachable.run (.start State.init_start) oneFile (Option.some_get _).symm
  have hexit : oneFileState.workers = List.replicate 1 .exited := by decide
  have hadded : oneFileState.added =
      [⟨⟨3, 4, .destPath 0⟩, utf8 "a", utf8 "src/a", utf8 "dst/a"⟩] := by decide
  have hall := (tasks_handled_once le_rfl le_rfl hr).2 hexit
  rw [hadded] at hall
  exact hall

end AdvancedCProjects.Copier
