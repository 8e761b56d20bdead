import AdvancedCProjects.Bibo.Moves
import AdvancedCProjects.Bibo.Order
import AdvancedCProjects.Bibo.Queue

/-!
# Waiting clients (biboServer.c:35-79, 555-594)

A client is told that it waits before `enqueue` is called, and `enqueue` gives up
without a word when `rear` is at the end of the array.
-/

namespace AdvancedCProjects.Bibo
open Base

/-- A client that was told it waits and was not taken out of the queue stands in
it once, unless the parent is just about to put it there. -/
def NoneLost (s : Server) : Prop :=
  ∀ pid, .told pid 1 ∈ s.log → .told pid 2 ∉ s.log →
    s.pc ≠ .dequeued pid → s.pc ≠ .enqueue pid → s.pc ≠ .stopped → s.queue.contents.count pid = 1

def RoomAt (s : Server) : ServerPc → Prop
  | .enqueue _ => ¬ s.queue.isFull
  | _ => True

/-- `enqueue` does not find the queue full. -/
def Room (s : Server) : Action → Prop
  | .serve => RoomAt s s.pc
  | _ => True

instance (s : Server) : DecidablePred (RoomAt s)
  | .enqueue _ => inferInstanceAs (Decidable (¬ s.queue.isFull))
  | .top | .dequeued _ | .read | .add _ _ _ | .refuse _ | .wait _ | .connect _ | .fork _
  | .stopped => inferInstanceAs (Decidable True)

instance (s : Server) : DecidablePred (Room s)
  | .serve => inferInstanceAs (Decidable (RoomAt s s.pc))
  | .request _ _ | .stop | .handler _ _ => inferInstanceAs (Decidable True)

/-! ### What the steps keep -/

/-- The client that the parent has read and not told anything yet. -/
def addressed : ServerPc → List ℤ
  | .add pid _ _ | .refuse pid | .wait pid | .connect pid => [pid]
  | _ => []

/-- The clients that wait, in the order in which they were told, are in the queue. -/
structure Waits (s : Server) : Prop where
  known : ∀ pid flag, .told pid flag ∈ s.log → .read pid ∈ s.log
  nodup : (waiters s.log).Nodup
  untold : ∀ pid ∈ addressed s.pc, Untold s pid
  queue : s.pc ≠ .stopped → ∃ xs, s.queue.Holds xs ∧
    waiting s.log = ahead s.pc ++ xs ++ behind s.pc

section Steps
variable {maxClients : ℕ} {s t : Server} {pid flag : ℤ} {pc : ServerPc}

theorem Waits.goto (h : Waits s) (hrun : s.pc ≠ .stopped) (haddr : addressed pc ⊆ addressed s.pc)
    (ha : ahead pc = ahead s.pc) (hb : behind pc = behind s.pc) (table : List ℤ)
    (handlers : List Handler) :
    Waits { s with connectedClients := table, handlers := handlers, pc := pc } where
  known := h.known
  nodup := h.nodup
  untold pid hp := h.untold pid (haddr hp)
  queue _ := by
    simp only [ha, hb]
    exact h.queue hrun

theorem Waits.told (h : Waits s) (hread : .read pid ∈ s.log)
    (hnodup : (waiters (s.log ++ [.told pid flag])).Nodup) (haddr : addressed pc = [])
    (hqueue : ∃ xs, s.queue.Holds xs ∧
      waiting (s.log ++ [.told pid flag]) = ahead pc ++ xs ++ behind pc) :
    Waits { s with log := s.log ++ [.told pid flag], pc := pc } where
  known p f hp := by
    rcases List.mem_append.mp hp with hp | hp
    · exact List.mem_append_left _ (h.known p f hp)
    · cases List.mem_singleton.mp hp
      exact List.mem_append_left _ hread
  nodup := hnodup
  untold p hp := by simp [haddr] at hp
  queue _ := hqueue

theorem waiters_append {e : Event} (he : e.waits = none) :
    waiters (s.log ++ [e]) = waiters s.log := by
  simp [waiters, he]

theorem waiting_told_other (hpid : pid ∉ waiting s.log) :
    waiting (s.log ++ [.told pid 2]) = waiting s.log := by
  rw [waiting_admitted]
  refine List.filter_eq_self.mpr fun v hv => ?_
  have hne : v ≠ pid := fun heq => hpid (heq ▸ hv)
  simpa using hne

theorem Waits.move (h : Waits s) (hroom : RoomAt s s.pc) (hmove : ParentMove s s.pc t) :
    Waits t := by
  have huntold := h.untold
  have hqueue := h.queue
  generalize hpc : s.pc = pc at hmove hroom huntold hqueue
  have goto (pc' : ServerPc) (table : List ℤ) (handlers : List Handler) (hrun : pc ≠ .stopped)
      (haddr : addressed pc' ⊆ addressed pc) (ha : ahead pc' = ahead pc)
      (hb : behind pc' = behind pc) :
      Waits { s with connectedClients := table, handlers := handlers, pc := pc' } :=
    h.goto (hpc ▸ hrun) (hpc ▸ haddr) (hpc ▸ ha) (hpc ▸ hb) table handlers
  cases hmove with
  | dequeue hne _ =>
    obtain ⟨xs, hq, hw⟩ := hqueue (by simp)
    cases xs with
    | nil => exact (hne (hq.empty rfl)).elim
    | cons x rest =>
      obtain ⟨hx, hrest⟩ := hq.dequeue
      refine ⟨h.known, h.nodup, by simp [addressed], fun _ => ⟨rest, hrest, ?_⟩⟩
      simpa [ahead, behind, hx] using hw
  | poll | nothing => exact goto _ _ _ (by simp) (by simp [addressed]) rfl rfl
  | take pid mode i hget => exact goto _ _ _ (by simp) (by simp [addressed]) rfl rfl
  | pass pid mode i hget hne => exact goto _ _ _ (by simp) (by simp [addressed]) rfl rfl
  | full pid mode i hget _ _ hpc' =>
    rcases hpc' with rfl | rfl | rfl
    all_goals exact goto _ _ _ (by simp) (by simp [addressed]) rfl rfl
  | dequeued pid =>
    obtain ⟨xs, hq, hw⟩ := hqueue (by simp)
    simp only [ahead, behind, List.append_nil, List.singleton_append] at hw
    have hnodup : (waiting s.log).Nodup := h.nodup.filter _
    rw [hw] at hnodup
    refine h.told (h.known pid 1 (mem_waiting.mp (by simp [hw])).1) ?_ rfl ⟨xs, hq, ?_⟩
    · rw [waiters_append rfl]
      exact h.nodup
    · have hkeep : xs.filter (· ≠ pid) = xs := by
        refine List.filter_eq_self.mpr fun v hv => ?_
        have hne : v ≠ pid := fun heq => (List.nodup_cons.mp hnodup).1 (heq ▸ hv)
        simpa using hne
      simpa [waiting_admitted, hw, ahead, behind] using hkeep
  | refuse pid =>
    have hpid := huntold pid (by simp [addressed])
    obtain ⟨xs, hq, hw⟩ := hqueue (by simp)
    refine h.told hpid.1 ?_ rfl ⟨xs, hq, ?_⟩
    · rw [waiters_append rfl]
      exact h.nodup
    · rw [waiting_append (by simp) (by simp), hw]
      rfl
  | wait pid =>
    have hpid := huntold pid (by simp [addressed])
    obtain ⟨xs, hq, hw⟩ := hqueue (by simp)
    refine h.told hpid.1 ?_ rfl ⟨xs, hq, ?_⟩
    · have hnot : pid ∉ waiters s.log := fun hmem => hpid.2 1 (mem_waiters.mp hmem)
      have hnew : waiters (s.log ++ [.told pid 1]) = waiters s.log ++ [pid] := by
        simp [waiters, Event.waits]
      rw [hnew]
      refine List.nodup_append.mpr ⟨h.nodup, List.nodup_singleton pid, ?_⟩
      rintro a ha b hb rfl
      exact hnot (List.mem_singleton.mp hb ▸ ha)
    · rw [waiting_wait (hpid.2 2), hw]
      simp [ahead, behind]
  | enqueue pid =>
    obtain ⟨xs, hq, hw⟩ := hqueue (by simp)
    refine ⟨h.known, h.nodup, by simp [addressed], fun _ => ⟨xs ++ [pid], hq.enqueue hroom, ?_⟩⟩
    simpa [ahead, behind] using hw
  | connect pid =>
    have hpid := huntold pid (by simp [addressed])
    obtain ⟨xs, hq, hw⟩ := hqueue (by simp)
    refine h.told hpid.1 ?_ rfl ⟨xs, hq, ?_⟩
    · rw [waiters_append rfl]
      exact h.nodup
    · rw [waiting_told_other fun hmem => hpid.2 1 (mem_waiting.mp hmem).1, hw]
      rfl
  | fork pid => exact goto _ _ _ (by simp) (by simp [addressed]) rfl rfl

theorem Waits.request (h : Waits s) (hpc : s.pc = .read) (hfresh : .read pid ∉ s.log) (mode : ℤ) :
    Waits { s with log := s.log ++ [.read pid], pc := .add pid mode 0 } where
  known p f hp := by
    have hp : Event.told p f ∈ s.log := by simpa using hp
    exact List.mem_append_left _ (h.known p f hp)
  nodup := by
    rw [waiters_append rfl]
    exact h.nodup
  untold p hp := by
    obtain rfl : p = pid := by simpa [addressed] using hp
    refine ⟨by simp, fun flag hmem => ?_⟩
    have hmem : Event.told p flag ∈ s.log := by simpa using hmem
    exact hfresh (h.known p flag hmem)
  queue _ := by
    rw [waiting_append (by simp) (by simp)]
    simpa [hpc, ahead, behind] using h.queue (by simp [hpc])

theorem waits_inductive (maxClients : ℕ) :
    (bibo maxClients).Inductive (fun s a => Room s a ∧ Fresh s a) Waits where
  base s hs := by
    obtain ⟨-, -, ⟨items, hq⟩, hpc, -, hlog⟩ := hs
    refine ⟨by simp [hlog], by simp [hlog, waiters], by simp [hpc, addressed],
      fun _ => ⟨[], ?_, ?_⟩⟩
    · exact hq ▸ Queue.holds_initializeQueue _
    · simp [hlog, hpc, waiting, waiters, ahead, behind]
  keep s a t h hok hn := by
    cases a with
    | serve => exact h.move hok.1 (serve_move hn)
    | request pid mode =>
      simp only [bibo, Server.next] at hn
      split at hn
      · next hreq =>
        cases hn
        exact h.request hreq.1 hok.2 mode
      · contradiction
    | stop =>
      simp only [bibo, Server.next] at hn
      split at hn
      · contradiction
      · cases hn
        exact ⟨h.known, h.nodup, by simp [addressed], fun hr => (hr rfl).elim⟩
    | handler i step =>
      obtain ⟨hlog, hqueue, hpc⟩ := handle_frame hn
      refine ⟨hlog ▸ h.known, hlog ▸ h.nodup, fun pid hp => ?_, ?_⟩
      · rw [hpc] at hp
        simpa only [Untold, hlog] using h.untold pid hp
      · rw [hlog, hqueue, hpc]
        exact h.queue

theorem Waits.noneLost (h : Waits s) : NoneLost s := by
  intro pid hwait hnot hdequeued henqueue hrun
  obtain ⟨xs, hq, hw⟩ := h.queue hrun
  have hmem : pid ∈ waiting s.log := mem_waiting.mpr ⟨hwait, hnot⟩
  have hnodup : (waiting s.log).Nodup := h.nodup.filter _
  have hone := List.count_eq_one_of_mem hnodup hmem
  have hahead : (ahead s.pc).count pid = 0 := by
    refine List.count_eq_zero.mpr fun hp => ?_
    cases hpc : s.pc <;> simp only [hpc, ahead, List.mem_singleton, List.not_mem_nil] at hp
    exact hdequeued (hp ▸ hpc)
  have hbehind : (behind s.pc).count pid = 0 := by
    refine List.count_eq_zero.mpr fun hp => ?_
    cases hpc : s.pc <;> simp only [hpc, behind, List.mem_singleton, List.not_mem_nil] at hp
    exact henqueue (hp ▸ hpc)
  rw [hw, List.count_append, List.count_append, hahead, hbehind] at hone
  rw [hq.contents_eq]
  omega

theorem Waits.lost (h : Waits s) (hpc : s.pc = .enqueue pid) (hfull : s.queue.isFull) :
    ¬ NoneLost { s with queue := s.queue.enqueue pid, pc := .top } := by
  intro hnone
  obtain ⟨xs, hq, hw⟩ := h.queue (by simp [hpc])
  simp only [hpc, ahead, behind, List.nil_append] at hw
  have hmem : pid ∈ waiting s.log := by simp [hw]
  have hnodup : (waiting s.log).Nodup := h.nodup.filter _
  obtain ⟨hwaits, htold⟩ := mem_waiting.mp hmem
  have hcount := hnone pid hwaits htold (by simp) (by simp) (by simp)
  rw [Queue.enqueue, if_pos hfull, hq.contents_eq] at hcount
  have hone := List.count_eq_one_of_mem hnodup hmem
  rw [hw, List.count_append, hcount, List.count_singleton_self] at hone
  omega

end Steps

/-- As long as the queue has room for them no waiting client is lost; the first
one that finds it full is. -/
theorem none_lost (maxClients : ℕ) (s : Server)
    (hr : (bibo maxClients).Reaches (fun s a => Room s a ∧ Fresh s a) s) :
    NoneLost s ∧ ∀ a t, Fresh s a → (bibo maxClients).next s a = some t →
      (NoneLost t ↔ Room s a) := by
  have h := (waits_inductive maxClients).holds hr
  refine ⟨h.noneLost, fun a t hfresh hn => ⟨fun hnone => ?_, fun hroom => ?_⟩⟩
  · cases a with
    | serve =>
      cases hpc : s.pc with
      | enqueue pid =>
        simp only [Room, hpc]
        intro hfull
        have hn : s.serve = some t := hn
        simp only [Server.serve, hpc, Option.some.injEq] at hn
        exact h.lost hpc hfull (hn ▸ hnone)
      | _ => simp only [Room, hpc, RoomAt]
    | _ => trivial
  · exact ((waits_inductive maxClients).keep s a t h ⟨hroom, hfresh⟩ hn).noneLost

theorem oneWaiting_kept : ∃ s, (bibo 1).Reaches (fun s a => Room s a ∧ Fresh s a) s ∧
    s.log = [.read 11, .told 11 2, .read 12, .told 12 1] ∧ NoneLost s := by
  have hrun : (((bibo 1).guarded fun s a => Room s a ∧ Fresh s a).run (.init 1)
      (Action.visit 11 0 3 ++ [.handler 0 .load, .handler 0 .store] ++ Action.visit 12 1 4)).map
        Server.log = some [.read 11, .told 11 2, .read 12, .told 12 1] := by decide
  obtain ⟨s, hs, hlog⟩ := Option.map_eq_some_iff.mp hrun
  have hr := Machine.Reaches.run (.start (Server.init_start 1)) _ hs
  exact ⟨s, hr, hlog, (none_lost 1 s hr).1⟩

def WaitingKept (maxClients : ℕ) : Prop :=
  ∀ s, (bibo maxClients).Reaches Fresh s → NoneLost s

def lateClient (k : ℕ) : ℤ := 12 + k

/-- Client 11 is served, and `k` others have come to wait. -/
def crowded : ℕ → Server
  | 0 =>
    { connectedClients := [11]
      emptySlotCount := 0
      queue := Queue.initializeQueue fun _ => 0
      pc := .top
      handlers := [⟨11, .session⟩]
      log := [.read 11, .told 11 2] }
  | k + 1 => { crowded k with
      queue := (crowded k).queue.enqueue (lateClient k)
      log := (crowded k).log ++ [.read (lateClient k), .told (lateClient k) 1] }

theorem crowded_frame (k : ℕ) : (crowded k).connectedClients = [11] ∧
    (crowded k).emptySlotCount = 0 ∧ (crowded k).pc = .top := by
  induction k with
  | zero => exact ⟨rfl, rfl, rfl⟩
  | succ k ih => exact ih

theorem crowded_read (k : ℕ) {pid : ℤ} (h : .read pid ∈ (crowded k).log) : pid < lateClient k := by
  induction k with
  | zero =>
    have hpid : pid = 11 := by simpa [crowded] using h
    simp [hpid, lateClient]
  | succ k ih =>
    simp only [crowded, List.mem_append, List.mem_cons, List.not_mem_nil, Event.read.injEq,
      reduceCtorEq, or_false] at h
    simp only [lateClient] at ih h ⊢
    push_cast
    rcases h with h | h
    · have hlt := ih h
      omega
    · omega

theorem crowded_admitted (k : ℕ) {pid : ℤ} (h : .told pid 2 ∈ (crowded k).log) : pid = 11 := by
  induction k with
  | zero => simpa [crowded] using h
  | succ k ih => exact ih (by simpa [crowded] using h)

theorem wait_reached {pid : ℤ} {queue : Queue} {handlers : List Handler} {log : List Event}
    (hr : (bibo 1).Reaches Fresh ⟨[11], 0, queue, .top, handlers, log⟩) (hpos : 0 < pid)
    (hfresh : .read pid ∉ log) : (bibo 1).Reaches Fresh
      ⟨[11], 0, queue.enqueue pid, .top, handlers, log ++ [.read pid, .told pid 1]⟩ := by
  have hread : (bibo 1).Reaches Fresh ⟨[11], 0, queue, .read, handlers, log⟩ :=
    hr.step (a := .serve) trivial (by simp [bibo, Server.next, Server.serve])
  have hadd : (bibo 1).Reaches Fresh ⟨[11], 0, queue, .add pid 1 0, handlers, log ++ [.read pid]⟩ :=
    hread.step (a := .request pid 1) hfresh (by simp [bibo, Server.next, hpos])
  have htold := hadd.run (List.replicate 4 .serve) rfl
  simpa using htold

theorem crowded_reached (k : ℕ) : (bibo 1).Reaches Fresh (crowded k) := by
  induction k with
  | zero =>
    have hrun : ((bibo 1).guarded Fresh).run (.init 1)
        (Action.visit 11 0 3 ++ [.handler 0 .load, .handler 0 .store]) = some (crowded 0) := rfl
    exact Machine.Reaches.run (.start (Server.init_start 1)) _ hrun
  | succ k ih =>
    obtain ⟨htable, hcount, hpc⟩ := crowded_frame k
    have hfresh : .read (lateClient k) ∉ (crowded k).log :=
      fun hread => Int.lt_irrefl _ (crowded_read k hread)
    have hpos : 0 < lateClient k := by
      unfold lateClient
      omega
    have heq : crowded k = ⟨[11], 0, (crowded k).queue, .top, (crowded k).handlers,
        (crowded k).log⟩ := by
      rw [← htable, ← hcount, ← hpc]
    rw [heq] at ih
    have hnext := wait_reached ih hpos hfresh
    rw [← htable, ← hcount, ← hpc] at hnext
    exact hnext

theorem crowded_queue (k : ℕ) (h : k ≤ maxSize) :
    (crowded k).queue.Holds ((List.range k).map lateClient) ∧ (crowded k).queue.rear = k - 1 := by
  induction k with
  | zero => exact ⟨Queue.holds_initializeQueue _, rfl⟩
  | succ k ih =>
    obtain ⟨hq, hrear⟩ := ih (by omega)
    have hroom : ¬ (crowded k).queue.isFull := by
      unfold Queue.isFull
      omega
    have hnext := hq.enqueue (x := lateClient k) hroom
    have hall : (List.range k).map lateClient ++ [lateClient k]
        = (List.range (k + 1)).map lateClient := by
      simp [List.range_succ]
    refine ⟨hall ▸ hnext, ?_⟩
    simp only [crowded, Queue.enqueue, if_neg hroom]
    by_cases hzero : k = 0
    · have hempty : (crowded k).queue.isEmpty := hq.empty (by simp [hzero])
      simp only [if_pos hempty]
      omega
    · have hempty : ¬ (crowded k).queue.isEmpty :=
        fun he => hzero (by simpa using hq.isEmpty_iff.mp he)
      simp only [if_neg hempty, hrear]
      push_cast
      omega

/-- The queue does not go round: after 1024 waiting clients it is full, and the
next one is told to wait and forgotten. -/
theorem waiting_lost : ¬ WaitingKept 1 := by
  intro h
  obtain ⟨hq, hrear⟩ := crowded_queue maxSize (Nat.le_refl _)
  have hfull : (crowded maxSize).queue.isFull := hrear
  have hnone := h _ (crowded_reached (maxSize + 1)) (lateClient maxSize) (by simp [crowded])
    (fun hadmitted => absurd (crowded_admitted _ hadmitted) (by decide))
  simp only [crowded, (crowded_frame maxSize).2.2, ne_eq, reduceCtorEq, not_false_eq_true,
    forall_const] at hnone
  rw [Queue.enqueue, if_pos hfull, hq.contents_eq] at hnone
  have hmem : lateClient maxSize ∈ (List.range maxSize).map lateClient := by
    refine List.count_pos_iff.mp ?_
    omega
  obtain ⟨j, hj, heq⟩ := List.mem_map.mp hmem
  have hlt := List.mem_range.mp hj
  simp only [lateClient] at heq
  omega

end AdvancedCProjects.Bibo
