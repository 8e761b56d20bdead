import AdvancedCProjects.Bibo.Capacity
import AdvancedCProjects.Bibo.Moves

/-!
# SIGUSR2: killServer (biboServer.c:279-295)

The handler signals the clients in the first `max_clients - empty_slot_count`
entries of the table. That is the number of children that have stored their
decrement, those that are gone included.
-/

namespace AdvancedCProjects.Bibo
open Base

/-- The indices that the loop reads and the clients that it signals; `beyond` is
what lies in memory behind the table. -/
def signalHandler2 (maxClients : ℕ) (beyond : ℕ → ℤ) (s : Server) : List ℕ × List ℤ :=
  let reads := List.range (maxClients - s.emptySlotCount).toNat
  (reads, (reads.map fun i => s.connectedClients.getD i (beyond i)).filter (· ≠ 0))

/-- Every client with a live child is signalled once and nobody else, and the
reads stay in the table. -/
def KillsExactly (maxClients : ℕ) (beyond : ℕ → ℤ) (s : Server) : Prop :=
  (∀ i ∈ (signalHandler2 maxClients beyond s).1, i < maxClients) ∧
  (∀ h ∈ s.handlers, h.live →
    (signalHandler2 maxClients beyond s).2.count h.clientPid = 1) ∧
  ∀ pid ∈ (signalHandler2 maxClients beyond s).2, ∃ h ∈ s.handlers, h.live ∧ h.clientPid = pid

/-- No child reads the counter while another is about to store it. -/
def Apart (s : Server) : Action → Prop
  | .handler _ .load => ∀ h ∈ s.handlers, h.pc.isLoaded = false
  | _ => True

instance (s : Server) : DecidablePred (Apart s)
  | .handler _ .load => inferInstanceAs (Decidable (∀ h ∈ s.handlers, h.pc.isLoaded = false))
  | .handler _ .store | .handler _ .quit | .handler _ .exit | .handler _ .leave | .serve
  | .request _ _ | .stop => inferInstanceAs (Decidable True)

/-- No client is between its table entry and its child's decrement. -/
def Quiet (s : Server) : Prop :=
  s.pc ≠ .stopped ∧ pending s.pc = [] ∧ ∀ h ∈ s.handlers, h.pc.starting = false

/-! ### What the steps keep -/

/-- Different clients, whose requests have been read. -/
def Roster (log : List Event) (pids : List ℤ) : Prop :=
  pids.Nodup ∧ ∀ pid ∈ pids, 0 < pid ∧ .read pid ∈ log

/-- The clients of the children, of the parent's statement and of the queue are
different ones; an entry of the table belongs to one of the first two. -/
structure Tabled (maxClients : ℕ) (s : Server) : Prop where
  counted : Counted maxClients s.emptySlotCount s.handlers
  size : s.connectedClients.length = maxClients
  roster : ∃ xs, s.queue.Holds xs ∧ Roster s.log (s.clients ++ xs)
  nodup : (nonzero s.connectedClients).Nodup
  owned : s.pc ≠ .stopped → ∀ pid ∈ nonzero s.connectedClients,
    pid ∈ s.handlers.map Handler.clientPid ++ pending s.pc
  free : s.pc ≠ .stopped → FreeFrom s.connectedClients (s.handlers.length + (pending s.pc).length)
  scan : ∀ pid mode i, s.pc = .add pid mode i → i ≤ s.handlers.length

section Steps
variable {maxClients : ℕ} {s t : Server} {pid : ℤ} {pc : ServerPc} {log log' : List Event}
  {queue : Queue} {pids pids' : List ℤ}

theorem Roster.subperm (h : Roster log pids) (hsub : pids'.Subperm pids) (hlog : log ⊆ log') :
    Roster log' pids' := by
  obtain ⟨middle, hperm, hsublist⟩ := hsub
  refine ⟨hperm.nodup_iff.mp (h.1.sublist hsublist), fun pid hp => ?_⟩
  obtain ⟨hpos, hread⟩ := h.2 pid (hsublist.subset (hperm.mem_iff.mpr hp))
  exact ⟨hpos, hlog hread⟩

theorem Tabled.goto (h : Tabled maxClients s) (pc : ServerPc) (hrun : s.pc ≠ .stopped)
    (hqueue : ∀ xs, s.queue.Holds xs →
      ∃ ys, queue.Holds ys ∧ (active pc ++ ys).Subperm (active s.pc ++ xs))
    (hlog : s.log ⊆ log) (hpend : (pending s.pc).Sublist (pending pc))
    (hscan : ∀ p mode i, pc = .add p mode i → i ≤ s.handlers.length) :
    Tabled maxClients { s with queue := queue, pc := pc, log := log } where
  counted := h.counted
  size := h.size
  roster := by
    obtain ⟨xs, hq, hroster⟩ := h.roster
    obtain ⟨ys, hys, hsub⟩ := hqueue xs hq
    refine ⟨ys, hys, hroster.subperm ?_ hlog⟩
    simp only [Server.clients, List.append_assoc]
    exact (List.subperm_append_left _).mpr hsub
  nodup := h.nodup
  owned _ p hp := by
    have hsub := (List.Sublist.refl (s.handlers.map Handler.clientPid)).append hpend
    exact hsub.subset (h.owned hrun p hp)
  free _ x hx := by
    have hle := hpend.length_le
    refine h.free hrun x (List.drop_subset_drop_left _ ?_ hx)
    dsimp only
    omega
  scan := hscan

theorem keeps_queue {pc' : ServerPc} (hactive : (active pc).Sublist (active pc')) :
    ∀ xs, queue.Holds xs → ∃ ys, queue.Holds ys ∧ (active pc ++ ys).Subperm (active pc' ++ xs) :=
  fun xs hq => ⟨xs, hq, (hactive.append (List.Sublist.refl xs)).subperm⟩

theorem Tabled.take (h : Tabled maxClients s) {mode : ℤ} {i : ℕ} (hpc : s.pc = .add pid mode i)
    (hget : s.connectedClients[i]? = some 0) : Tabled maxClients
      { s with connectedClients := s.connectedClients.set i pid, pc := .connect pid } := by
  have hrun : s.pc ≠ .stopped := by simp [hpc]
  obtain ⟨xs, hq, hroster⟩ := h.roster
  have hnodup := hroster.1
  have hpid := hroster.2 pid (by simp [Server.clients, hpc, active])
  have hperm := nonzero_set hget (Int.ne_of_gt hpid.1)
  have howned := h.owned hrun
  have hfree := h.free hrun
  simp only [hpc, pending, List.append_nil, List.length_nil, Nat.add_zero] at howned hfree
  have hnew : pid ∉ s.handlers.map Handler.clientPid := by
    simp only [Server.clients, hpc, active] at hnodup
    have hfront := hnodup.sublist (List.sublist_append_left _ _)
    exact fun hp => List.nodup_append.mp hfront |>.2.2 pid hp pid (by simp) rfl
  refine ⟨h.counted, by simpa using h.size, ⟨xs, hq, ?_⟩, ?_, fun _ p hp => ?_, fun _ => ?_,
    by simp⟩
  · simpa only [Server.clients, hpc, active] using hroster
  · refine hperm.nodup_iff.mpr (List.nodup_cons.mpr ⟨fun hp => hnew (howned pid hp), h.nodup⟩)
  · rcases List.mem_cons.mp (hperm.mem_iff.mp hp) with rfl | hp
    · simp [pending]
    · exact List.mem_append_left _ (howned p hp)
  · exact hfree.add (h.scan pid mode i hpc)

theorem Tabled.fork (h : Tabled maxClients s) (hpc : s.pc = .fork pid) : Tabled maxClients
    { s with handlers := s.handlers ++ [⟨pid, .start⟩], pc := .top } where
  counted := h.counted.fork
  size := h.size
  roster := by
    obtain ⟨xs, hq, hroster⟩ := h.roster
    refine ⟨xs, hq, ?_⟩
    simpa [Server.clients, hpc, active] using hroster
  nodup := h.nodup
  owned _ p hp := by
    have hmem := h.owned (by simp [hpc]) p hp
    simpa [hpc, pending] using hmem
  free _ := by
    have hfree := h.free (by simp [hpc])
    simpa [hpc, pending] using hfree
  scan := by simp

theorem Tabled.move (h : Tabled maxClients s) (hmove : ParentMove s s.pc t) :
    Tabled maxClients t := by
  have hscan := h.scan
  generalize hpc : s.pc = pc at hmove
  have hrun (hne : pc ≠ .stopped) : s.pc ≠ .stopped := hpc ▸ hne
  have hlog (e : Event) : s.log ⊆ s.log ++ [e] := List.subset_append_left _ _
  cases hmove with
  | dequeue hne _ =>
    refine h.goto _ (hrun (by simp)) (fun xs hq => ?_) (List.Subset.refl _)
      (by simp [hpc, pending]) (by simp)
    cases xs with
    | nil => exact (hne (hq.empty rfl)).elim
    | cons x rest =>
      obtain ⟨hx, hrest⟩ := hq.dequeue
      exact ⟨rest, hrest, by simp [hpc, active, hx, List.Subperm.refl]⟩
  | poll | nothing =>
    exact h.goto _ (hrun (by simp)) (keeps_queue (by simp [active])) (List.Subset.refl _)
      (by simp [hpc, pending]) (by simp)
  | take pid mode i hget => exact h.take hpc hget
  | pass pid mode i hget hne =>
    refine h.goto _ (hrun (by simp)) (keeps_queue (by simp [hpc, active])) (List.Subset.refl _)
      (by simp [hpc, pending]) fun p m j hj => ?_
    obtain ⟨-, -, rfl⟩ := ServerPc.add.inj hj
    have hfree := h.free (hrun (by simp))
    simp only [hpc, pending, List.length_nil, Nat.add_zero] at hfree
    exact hfree.lt (hscan pid mode i hpc) hget hne
  | full pid mode i hget _ _ hpc' =>
    have goto (pc' : ServerPc) (hactive : active pc' = [pid])
        (hscan : ∀ p m j, pc' = .add p m j → j ≤ s.handlers.length) :
        Tabled maxClients { s with pc := pc' } :=
      h.goto pc' (hrun (by simp)) (keeps_queue (by rw [hactive, hpc]; exact List.Sublist.refl _))
        (List.Subset.refl _) (by simp [hpc, pending]) hscan
    rcases hpc' with rfl | rfl | rfl
    all_goals exact goto _ rfl (by simp)
  | dequeued pid | connect pid =>
    exact h.goto _ (hrun (by simp)) (keeps_queue (by simp [hpc, active])) (hlog _)
      (by simp [hpc, pending]) (by simp)
  | refuse pid =>
    exact h.goto _ (hrun (by simp)) (keeps_queue (by simp [active])) (hlog _)
      (by simp [hpc, pending]) (by simp)
  | wait pid =>
    exact h.goto _ (hrun (by simp)) (keeps_queue (by simp [hpc, active])) (hlog _)
      (by simp [hpc, pending]) (by simp)
  | enqueue pid =>
    refine h.goto _ (hrun (by simp)) (fun xs hq => ?_) (List.Subset.refl _)
      (by simp [hpc, pending]) (by simp)
    by_cases hfull : s.queue.isFull
    · refine ⟨xs, by rwa [Queue.enqueue, if_pos hfull], ?_⟩
      simpa [hpc, active] using (List.sublist_cons_self pid xs).subperm
    · refine ⟨xs ++ [pid], hq.enqueue hfull, ?_⟩
      simpa [hpc, active] using (List.perm_append_singleton pid xs).subperm
  | fork pid => exact h.fork hpc

theorem Tabled.request (h : Tabled maxClients s) (hpc : s.pc = .read) (hpos : 0 < pid)
    (hfresh : .read pid ∉ s.log) (mode : ℤ) :
    Tabled maxClients { s with log := s.log ++ [.read pid], pc := .add pid mode 0 } where
  counted := h.counted
  size := h.size
  roster := by
    obtain ⟨xs, hq, hroster⟩ := h.roster
    have hnew : Roster (s.log ++ [.read pid]) (pid :: (s.clients ++ xs)) := by
      have hnodup := List.nodup_cons.mpr ⟨fun hp => hfresh (hroster.2 pid hp).2, hroster.1⟩
      refine ⟨hnodup, fun p hp => ?_⟩
      rcases List.mem_cons.mp hp with rfl | hp
      · exact ⟨hpos, by simp⟩
      · exact ⟨(hroster.2 p hp).1, List.mem_append_left _ (hroster.2 p hp).2⟩
    refine ⟨xs, hq, hnew.subperm ?_ (List.Subset.refl _)⟩
    simp only [Server.clients, hpc, active, List.append_nil, List.append_assoc]
    exact List.perm_middle.subperm
  nodup := h.nodup
  owned _ := by simpa [hpc, pending] using h.owned (by simp [hpc])
  free _ := by simpa [hpc, pending] using h.free (by simp [hpc])
  scan _ _ _ hi := by
    obtain ⟨-, -, rfl⟩ := ServerPc.add.inj hi
    exact Nat.zero_le _

theorem Tabled.handle (h : Tabled maxClients s) {i : ℕ} {step : HandlerStep}
    (hok : Apart s (.handler i step)) (hn : s.handle i step = some t) : Tabled maxClients t := by
  obtain ⟨l₁, l₂, pid, pc, hsplit, hcases⟩ := handle_cases hn
  have hpids (pc' : HandlerPc) :
      (l₁ ++ ⟨pid, pc'⟩ :: l₂).map Handler.clientPid = s.handlers.map Handler.clientPid := by
    simp [hsplit]
  have hlength (pc' : HandlerPc) : (l₁ ++ ⟨pid, pc'⟩ :: l₂).length = s.handlers.length := by
    simp [hsplit]
  have hcounted := h.counted
  rw [hsplit] at hcounted
  have same (count : ℤ) (pc' : HandlerPc)
      (hcount : Counted maxClients count (l₁ ++ ⟨pid, pc'⟩ :: l₂)) : Tabled maxClients
      { s with emptySlotCount := count, handlers := l₁ ++ ⟨pid, pc'⟩ :: l₂ } := by
    refine ⟨hcount, h.size, ?_, h.nodup, ?_, ?_, ?_⟩
    · simpa only [Server.clients, hpids] using h.roster
    · simpa only [hpids] using h.owned
    · simpa only [hlength] using h.free
    · simpa only [hlength] using h.scan
  rcases hcases with ⟨rfl, rfl, rfl⟩ | ⟨v, rfl, rfl⟩ | ⟨rfl, -, rfl⟩ | ⟨rfl, rfl⟩ | ⟨rfl, -, rfl⟩
  · exact same _ _ (hcounted.load (hsplit ▸ hok))
  · exact same _ _ hcounted.store
  · have hmoved := same _ .cleared (hcounted.move rfl rfl)
    have hpos : pid ≠ 0 := by
      obtain ⟨xs, -, hroster⟩ := h.roster
      have hp := hroster.2 pid (by simp [Server.clients, hsplit])
      omega
    have hnonzero := nonzero_clearClient s.connectedClients hpos
    refine ⟨hmoved.counted, by simpa using h.size, hmoved.roster, ?_, fun hrun p hp => ?_,
      fun hrun => (hmoved.free hrun).quit, hmoved.scan⟩
    · rw [hnonzero]
      exact h.nodup.erase pid
    · rw [hnonzero] at hp
      exact hmoved.owned hrun p (List.mem_of_mem_erase hp)
  · exact same _ _ (hcounted.move rfl rfl)
  · exact same _ _ (hcounted.move rfl rfl)

theorem tabled_inductive (maxClients : ℕ) :
    (bibo maxClients).Inductive (fun s a => Apart s a ∧ Fresh s a) (Tabled maxClients) where
  base s hs := by
    obtain ⟨htable, hcount, ⟨items, hq⟩, hpc, hhandlers, hlog⟩ := hs
    have hzero : nonzero (List.replicate maxClients 0) = [] := by simp [nonzero]
    refine ⟨⟨by simp [hcount, hhandlers], by simp [hhandlers], by simp [hhandlers]⟩,
      by simp [htable], ⟨[], hq ▸ Queue.holds_initializeQueue _, ?_⟩, ?_, ?_, ?_, by simp [hpc]⟩
    · simp [Roster, Server.clients, hhandlers, hpc, active]
    · simp [htable, hzero]
    · simp [htable, hzero]
    · intro _ x hx
      rw [htable, List.drop_replicate] at hx
      exact (List.mem_replicate.mp hx).2
  keep s a t h hok hn := by
    cases a with
    | serve => exact h.move (serve_move hn)
    | request pid mode =>
      simp only [bibo, Server.next] at hn
      split at hn
      · next hreq =>
        cases hn
        exact h.request hreq.1 hreq.2.1 hok.2 mode
      · contradiction
    | stop =>
      simp only [bibo, Server.next] at hn
      split at hn
      · contradiction
      · cases hn
        obtain ⟨xs, hq, hroster⟩ := h.roster
        refine ⟨h.counted, h.size, ⟨xs, hq, hroster.subperm ?_ (List.Subset.refl _)⟩, h.nodup,
          fun hr => (hr rfl).elim, fun hr => (hr rfl).elim, by simp⟩
        simp only [Server.clients, active, List.append_nil]
        exact ((List.sublist_append_left _ _).append (List.Sublist.refl xs)).subperm
    | handler i step => exact h.handle hok.1 hn

end Steps

/-! ### The signal -/

/-- The children that have stored their decrement, those that are gone included. -/
def Server.stored (s : Server) : ℕ := s.handlers.countP fun h => !h.pc.starting

/-- The entries in front of `stored` are the clients that have a live child. -/
def Covered (maxClients : ℕ) (s : Server) : Prop :=
  s.stored ≤ maxClients ∧
  (∀ h ∈ s.handlers, h.clientPid ∈ s.connectedClients.take s.stored ↔ h.live) ∧
  ∀ pid ∈ pending s.pc, pid ∉ s.connectedClients.take s.stored

section Signal
variable {maxClients : ℕ} {s : Server} {beyond : ℕ → ℤ}

theorem Tabled.reads (h : Tabled maxClients s) :
    (signalHandler2 maxClients beyond s).1 = List.range s.stored := by
  have hcount := h.counted.counter
  have hbound : (maxClients - s.emptySlotCount).toNat = s.stored := by
    unfold Server.stored
    omega
  rw [signalHandler2, hbound]

theorem Tabled.kills (h : Tabled maxClients s) (hroom : s.stored ≤ maxClients) :
    (signalHandler2 maxClients beyond s).2 = nonzero (s.connectedClients.take s.stored) := by
  have hreads : (signalHandler2 maxClients beyond s).1 = List.range s.stored := h.reads
  have htake : (List.range s.stored).map (fun i => s.connectedClients.getD i (beyond i))
      = s.connectedClients.take s.stored := by
    have hsize := h.size
    refine List.ext_getElem (by simp; omega) fun i hi _ => ?_
    have hlt : i < s.connectedClients.length := by
      simp only [List.length_map, List.length_range] at hi
      omega
    simp [List.getD_eq_getElem?_getD, hlt]
  show ((signalHandler2 maxClients beyond s).1.map _).filter _ = _
  rw [hreads, htake]
  rfl

theorem pending_sub_active (pc : ServerPc) : (pending pc).Sublist (active pc) := by
  cases pc <;> simp [pending, active]

theorem Tabled.positive (h : Tabled maxClients s) {pid : ℤ} (hmem : pid ∈ s.clients) :
    pid ≠ 0 := by
  obtain ⟨xs, -, hroster⟩ := h.roster
  have hpos := (hroster.2 pid (List.mem_append_left _ hmem)).1
  omega

theorem Tabled.same_child (h : Tabled maxClients s) {hd hd' : Handler} (hmem : hd ∈ s.handlers)
    (hmem' : hd' ∈ s.handlers) (heq : hd.clientPid = hd'.clientPid) : hd = hd' := by
  obtain ⟨xs, -, hroster⟩ := h.roster
  have hnodup := (hroster.1.sublist (List.sublist_append_left _ _)).sublist
    (List.sublist_append_left _ _)
  exact List.inj_on_of_nodup_map hnodup hmem hmem' heq

theorem Tabled.pending_new (h : Tabled maxClients s) {pid : ℤ} (hp : pid ∈ pending s.pc) :
    pid ∉ s.handlers.map Handler.clientPid := by
  obtain ⟨xs, -, hroster⟩ := h.roster
  have hnodup := hroster.1.sublist (List.sublist_append_left _ _)
  intro hmem
  exact (List.nodup_append.mp hnodup).2.2 pid hmem pid ((pending_sub_active s.pc).subset hp) rfl

theorem Tabled.killsExactly_iff (h : Tabled maxClients s) (hrun : s.pc ≠ .stopped) :
    KillsExactly maxClients beyond s ↔ Covered maxClients s := by
  unfold KillsExactly Covered
  rw [h.reads]
  have hindex : (∀ i ∈ List.range s.stored, i < maxClients) ↔ s.stored ≤ maxClients := by
    simp only [List.mem_range]
    exact ⟨fun hall => Nat.le_of_not_lt fun hlt => Nat.lt_irrefl _ (hall maxClients hlt),
      fun hle i hi => by omega⟩
  rw [hindex]
  refine and_congr_right fun hroom => ?_
  rw [h.kills hroom]
  have hentry (pid : ℤ) (hpid : pid ∈ s.clients) : pid ∈ nonzero (s.connectedClients.take s.stored)
      ↔ pid ∈ s.connectedClients.take s.stored := by simp [nonzero, h.positive hpid]
  have hchild (hd : Handler) (hmem : hd ∈ s.handlers) : hd.clientPid ∈ s.clients :=
    List.mem_append_left _ (List.mem_map_of_mem hmem)
  have hnodup : (nonzero (s.connectedClients.take s.stored)).Nodup :=
    h.nodup.sublist ((List.take_sublist _ _).filter _)
  constructor
  · rintro ⟨hlive, honly⟩
    refine ⟨fun hd hmem => ⟨fun hin => ?_, fun hl => ?_⟩, fun pid hp hin => ?_⟩
    · obtain ⟨hd', hmem', hl, heq⟩ := honly _ ((hentry _ (hchild hd hmem)).mpr hin)
      rwa [h.same_child hmem' hmem heq] at hl
    · have hone := hlive hd hmem hl
      exact (hentry _ (hchild hd hmem)).mp (List.count_pos_iff.mp (by omega))
    · have hclient : pid ∈ s.clients :=
        List.mem_append_right _ ((pending_sub_active s.pc).subset hp)
      obtain ⟨hd, hmem, -, rfl⟩ := honly pid ((hentry pid hclient).mpr hin)
      exact h.pending_new hp (List.mem_map_of_mem hmem)
  · rintro ⟨hall, hpend⟩
    refine ⟨fun hd hmem hl => ?_, fun pid hp => ?_⟩
    · exact List.count_eq_one_of_mem hnodup
        ((hentry _ (hchild hd hmem)).mpr ((hall hd hmem).mpr hl))
    · have hin : pid ∈ s.connectedClients.take s.stored := (List.mem_filter.mp hp).1
      have htable : pid ∈ nonzero s.connectedClients :=
        ((List.take_sublist _ _).filter _).subset hp
      rcases List.mem_append.mp (h.owned hrun pid htable) with hmem | hmem
      · obtain ⟨hd, hchild, rfl⟩ := List.mem_map.mp hmem
        exact ⟨hd, hchild, (hall hd hchild).mp hin, rfl⟩
      · exact (hpend pid hmem hin).elim

theorem Tabled.covered_quiet (h : Tabled maxClients s) (hquiet : Quiet s) :
    Covered maxClients s ↔ s.handlers.length ≤ maxClients ∧
      ∀ h ∈ s.handlers, h.clientPid ∈ s.connectedClients ↔ h.live := by
  obtain ⟨hrun, hpend, hstored⟩ := hquiet
  have hlen : s.stored = s.handlers.length :=
    List.countP_eq_length.mpr fun hd hmem => by simp [hstored hd hmem]
  have hfree := h.free hrun
  rw [hpend, List.length_nil, Nat.add_zero] at hfree
  have hentry (hd : Handler) (hmem : hd ∈ s.handlers) :
      hd.clientPid ∈ s.connectedClients.take s.stored ↔ hd.clientPid ∈ s.connectedClients := by
    have hne : hd.clientPid ≠ 0 :=
      h.positive (List.mem_append_left _ (List.mem_map_of_mem hmem))
    have htake := congrArg (hd.clientPid ∈ ·) hfree.nonzero_take
    simpa [nonzero, hne, hlen] using htake
  unfold Covered
  rw [hpend, hlen]
  refine and_congr_right fun _ => ⟨fun hall hd hmem => ?_, fun hall => ⟨fun hd hmem => ?_, by simp⟩⟩
  · rw [← hall.1 hd hmem, ← hlen, hentry hd hmem]
  · rw [← hall hd hmem, ← hlen, hentry hd hmem]

end Signal

/-- Who is signalled depends on where `add_client` has put the clients: right
is the table whose first entries, one for each decrement, are the live ones. -/
theorem kills_exactly_iff (maxClients : ℕ) (beyond : ℕ → ℤ) (s : Server)
    (hr : (bibo maxClients).Reaches (fun s a => Apart s a ∧ Fresh s a) s) (hrun : s.pc ≠ .stopped) :
    (KillsExactly maxClients beyond s ↔ Covered maxClients s) ∧
    (Quiet s → (KillsExactly maxClients beyond s ↔ s.handlers.length ≤ maxClients ∧
      ∀ h ∈ s.handlers, h.clientPid ∈ s.connectedClients ↔ h.live)) := by
  have h := (tabled_inductive maxClients).holds hr
  refine ⟨h.killsExactly_iff hrun, fun hquiet => ?_⟩
  rw [h.killsExactly_iff hrun, h.covered_quiet hquiet]

theorem twoServed_killed : ∃ s, (bibo 2).Reaches (fun s a => Apart s a ∧ Fresh s a) s ∧
    s.handlers = [⟨11, .session⟩, ⟨12, .session⟩] ∧ ∀ beyond, KillsExactly 2 beyond s := by
  have hrun : (((bibo 2).guarded fun s a => Apart s a ∧ Fresh s a).run (.init 2) twoServed).map
      (fun s => (s.pc, s.handlers, s.connectedClients))
      = some (.top, [⟨11, .session⟩, ⟨12, .session⟩], [11, 12]) := by decide
  obtain ⟨s, hs, hf⟩ := Option.map_eq_some_iff.mp hrun
  simp only [Prod.mk.injEq] at hf
  obtain ⟨hpc, hhandlers, htable⟩ := hf
  have hr := Machine.Reaches.run (.start (Server.init_start 2)) _ hs
  have hquiet : Quiet s := ⟨by simp [hpc], by simp [hpc, pending], by simp [hhandlers]⟩
  refine ⟨s, hr, hhandlers, fun beyond => ?_⟩
  refine ((kills_exactly_iff 2 beyond s hr (by simp [hpc])).2 hquiet).mpr ⟨by simp [hhandlers], ?_⟩
  simp [hhandlers, htable, Handler.live]

def KillServerExact (maxClients : ℕ) : Prop :=
  ∀ beyond s, (bibo maxClients).Reaches Fresh s → s.pc ≠ .stopped →
    KillsExactly maxClients beyond s

/-- One client has come and gone and another one is served: the counter is -1, and the
loop reads behind the table. -/
theorem kill_beyond_table : ¬ KillServerExact 1 := by
  intro h
  have hrun : (((bibo 1).guarded Fresh).run (.init 1) (Action.visit 11 0 3 ++
      [.handler 0 .load, .handler 0 .store, .handler 0 .quit, .handler 0 .exit] ++
      Action.visit 12 0 3 ++ [.handler 1 .load, .handler 1 .store])).map
      (fun s => (s.pc, s.handlers, s.emptySlotCount, s.connectedClients))
      = some (.top, [⟨11, .ended⟩, ⟨12, .session⟩], -1, [12]) := by decide
  obtain ⟨s, hs, hf⟩ := Option.map_eq_some_iff.mp hrun
  simp only [Prod.mk.injEq] at hf
  obtain ⟨hpc, -, hcount, -⟩ := hf
  have hr := Machine.Reaches.run (.start (Server.init_start 1)) _ hs
  have hindex := (h (fun _ => 0) s hr (by simp [hpc])).1 1
  simp [signalHandler2, hcount] at hindex

end AdvancedCProjects.Bibo
