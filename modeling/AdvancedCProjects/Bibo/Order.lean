import AdvancedCProjects.Bibo.Capacity

/-!
# Order of admission

The waiting clients of the log, in the order in which they were told, are the
contents of the queue. A client that is admitted past them has found a free
entry in the table.
-/

namespace AdvancedCProjects.Bibo
open Base

/-- A client whose request is read after another one was told it is waiting is
not admitted before that one. -/
def InOrder (log : List Event) : Prop :=
  ∀ w c, [.told w 1, .read c, .told c 2].Sublist log → [.told w 2, .told c 2].Sublist log

/-- No free entry is found while clients wait, and a waiting client finds room
in the queue. -/
def QueuedAt (s : Server) : ServerPc → Prop
  | .add _ _ i => s.connectedClients[i]? = some 0 → s.queue.isEmpty
  | .enqueue _ => ¬ s.queue.isFull
  | _ => True

def Queued (s : Server) : Action → Prop
  | .serve => QueuedAt s s.pc
  | _ => True

instance (s : Server) : DecidablePred (QueuedAt s)
  | .add _ _ i => inferInstanceAs (Decidable (s.connectedClients[i]? = some 0 → s.queue.isEmpty))
  | .enqueue _ => inferInstanceAs (Decidable (¬ s.queue.isFull))
  | .top | .dequeued _ | .read | .refuse _ | .wait _ | .connect _ | .fork _ | .stopped =>
    inferInstanceAs (Decidable True)

instance (s : Server) : DecidablePred (Queued s)
  | .serve => inferInstanceAs (Decidable (QueuedAt s s.pc))
  | .request _ _ | .stop | .handler _ _ => inferInstanceAs (Decidable True)

def Event.waits : Event → Option ℤ
  | .told pid flag => if flag = 1 then some pid else none
  | .read _ => none

def waiters (log : List Event) : List ℤ := log.filterMap Event.waits

def waiting (log : List Event) : List ℤ := (waiters log).filter fun w => .told w 2 ∉ log

section Log
variable {log : List Event} {e : Event} {w c pid flag : ℤ}

theorem sublist_concat {α : Type} (xs : List α) {l : List α} {x y : α}
    (h : (xs ++ [x]).Sublist (l ++ [y])) :
    (xs ++ [x]).Sublist l ∨ (x = y ∧ xs.Sublist l) := by
  have hr := List.reverse_sublist.mpr h
  simp only [List.reverse_append, List.reverse_singleton, List.singleton_append] at hr
  cases hr with
  | cons _ hr =>
    left
    have hback := List.reverse_sublist.mpr hr
    simpa using hback
  | cons_cons _ hr => exact .inr ⟨rfl, List.reverse_sublist.mp hr⟩

theorem InOrder.append (h : InOrder log) (he : ∀ c, e ≠ .told c 2) : InOrder (log ++ [e]) := by
  intro w c hsub
  rcases sublist_concat [Event.told w 1, .read c] hsub with hsub | ⟨heq, -⟩
  · exact (h w c hsub).trans (List.sublist_append_left _ _)
  · exact (he c heq.symm).elim

theorem InOrder.admitted (h : InOrder log)
    (hw : ∀ w, [.told w 1, .read c].Sublist log → .told w 2 ∈ log) :
    InOrder (log ++ [.told c 2]) := by
  intro w d hsub
  rcases sublist_concat [Event.told w 1, .read d] hsub with hsub | ⟨heq, hsub⟩
  · exact (h w d hsub).trans (List.sublist_append_left _ _)
  · cases heq
    exact (List.singleton_sublist.mpr (hw w hsub)).append (List.Sublist.refl _)

theorem waiting_append (he : ∀ c, e ≠ .told c 2) (hw : ∀ w, e ≠ .told w 1) :
    waiting (log ++ [e]) = waiting log := by
  have hnone : e.waits = none := by
    cases e with
    | read pid => rfl
    | told pid flag =>
      have hflag : flag ≠ 1 := fun h => hw pid (h ▸ rfl)
      simp [Event.waits, hflag]
  have hmem : ∀ w, .told w 2 ∈ log ++ [e] ↔ .told w 2 ∈ log := by
    intro w
    simp [(he w).symm]
  simp only [waiting, waiters, List.filterMap_append, List.filterMap_cons, hnone,
    List.filterMap_nil, List.append_nil, hmem]

theorem waiting_wait (hw : .told w 2 ∉ log) :
    waiting (log ++ [.told w 1]) = waiting log ++ [w] := by
  have hmem : ∀ v, Event.told v 2 ∈ log ++ [.told w 1] ↔ .told v 2 ∈ log := by simp
  simp [waiting, waiters, hmem, Event.waits, hw]

theorem waiting_admitted : waiting (log ++ [.told c 2]) = (waiting log).filter (· ≠ c) := by
  have hmem : ∀ v, Event.told v 2 ∈ log ++ [.told c 2] ↔ .told v 2 ∈ log ∨ v = c := by simp
  simp only [waiting, waiters, List.filterMap_append, List.filterMap_cons, Event.waits,
    Int.reduceEq, if_false, List.filterMap_nil, List.append_nil, List.filter_filter, hmem]
  refine List.filter_congr fun v _ => ?_
  by_cases hv : v = c <;> simp [hv]

theorem mem_waiters : w ∈ waiters log ↔ .told w 1 ∈ log := by
  simp only [waiters, List.mem_filterMap]
  constructor
  · rintro ⟨e, he, hw⟩
    cases e with
    | read pid => simp [Event.waits] at hw
    | told pid flag =>
      simp only [Event.waits] at hw
      split at hw
      · next hflag =>
        cases hw
        exact hflag ▸ he
      · contradiction
  · intro h
    exact ⟨_, h, by simp [Event.waits]⟩

theorem mem_waiting : w ∈ waiting log ↔ .told w 1 ∈ log ∧ .told w 2 ∉ log := by
  simp [waiting, mem_waiters]

end Log

/-! ### What the steps keep -/

/-- The client that has been taken out of the queue and is not told yet. -/
def ahead : ServerPc → List ℤ
  | .dequeued pid => [pid]
  | _ => []

def behind : ServerPc → List ℤ
  | .enqueue pid => [pid]
  | _ => []

def Untold (s : Server) (pid : ℤ) : Prop := .read pid ∈ s.log ∧ ∀ flag, .told pid flag ∉ s.log

def Turn (s : Server) : ServerPc → Prop
  | .add pid mode _ => (mode = 0 ∨ mode = 1) ∧ Untold s pid
  | .refuse pid | .wait pid => Untold s pid
  | .connect pid => Untold s pid ∧ s.queue.isEmpty
  | _ => True

structure Ordered (s : Server) : Prop where
  inOrder : InOrder s.log
  known : ∀ pid flag, .told pid flag ∈ s.log → .read pid ∈ s.log
  after : ∀ pid, .told pid 1 ∈ s.log → ∀ e, [e, .read pid].Sublist s.log →
    [e, .told pid 1].Sublist s.log
  nodup : (waiters s.log).Nodup
  turn : Turn s s.pc
  queue : s.pc ≠ .stopped → ∃ xs, s.queue.Holds xs ∧
    waiting s.log = ahead s.pc ++ xs ++ behind s.pc

section Steps
variable {s t : Server} {w c pid : ℤ}

theorem Ordered.first (h : Ordered s) {xs : List ℤ} (hw : waiting s.log = c :: xs)
    (hsub : [.told w 1, .read c].Sublist s.log) : .told w 2 ∈ s.log := by
  by_contra hnot
  have hc : c ∈ waiting s.log := by simp [hw]
  have hpair := h.after c (mem_waiting.mp hc).1 _ hsub
  have hwaiters : [w, c].Sublist (waiters s.log) := hpair.filterMap Event.waits
  have hlater : [w, c].Sublist (waiting s.log) := by
    have hfilter := hwaiters.filter fun w => decide (Event.told w 2 ∉ s.log)
    simpa [waiting, hnot, (mem_waiting.mp hc).2] using hfilter
  have hnodup : (waiting s.log).Nodup := h.nodup.filter _
  rw [hw] at hlater hnodup
  have hcx := (List.nodup_cons.mp hnodup).1
  cases hlater with
  | cons _ hl => exact hcx (hl.subset (by simp))
  | cons_cons _ hl => exact hcx (hl.subset (by simp))

theorem Ordered.after_append (h : Ordered s) {e : Event} (he : ∀ p, e ≠ .told p 1)
    (hfresh : ∀ p, e = .read p → .read p ∉ s.log) :
    ∀ p, .told p 1 ∈ s.log ++ [e] → ∀ x, [x, .read p].Sublist (s.log ++ [e]) →
      [x, .told p 1].Sublist (s.log ++ [e]) := by
  intro p hp x hsub
  have hold : Event.told p 1 ∈ s.log := by
    rcases List.mem_append.mp hp with hp | hp
    · exact hp
    · exact (he p (List.mem_singleton.mp hp).symm).elim
  rcases sublist_concat [x] hsub with hsub | ⟨heq, -⟩
  · exact (h.after p hold x hsub).trans (List.sublist_append_left _ _)
  · exact (hfresh p heq.symm (h.known p 1 hold)).elim

theorem Ordered.same (h : Ordered s) (hlog : t.log = s.log) (hqueue : t.queue = s.queue)
    (hrun : s.pc ≠ .stopped) (hturn : Turn t t.pc) (ha : ahead t.pc = ahead s.pc)
    (hb : behind t.pc = behind s.pc) : Ordered t where
  inOrder := hlog ▸ h.inOrder
  known := hlog ▸ h.known
  after := hlog ▸ h.after
  nodup := hlog ▸ h.nodup
  turn := hturn
  queue _ := by
    rw [hlog, hqueue, ha, hb]
    exact h.queue hrun

theorem Ordered.event (h : Ordered s) {e : Event} {pc : ServerPc} (horder : InOrder (s.log ++ [e]))
    (he : ∀ p, e ≠ .told p 1) (hfresh : ∀ p, e = .read p → .read p ∉ s.log)
    (hknown : ∀ p flag, e = .told p flag → .read p ∈ s.log)
    (hturn : Turn { s with log := s.log ++ [e], pc := pc } pc)
    (hqueue : ∃ xs, s.queue.Holds xs ∧ waiting (s.log ++ [e]) = ahead pc ++ xs ++ behind pc) :
    Ordered { s with log := s.log ++ [e], pc := pc } where
  inOrder := horder
  known p flag hp := by
    rcases List.mem_append.mp hp with hp | hp
    · exact List.mem_append_left _ (h.known p flag hp)
    · exact List.mem_append_left _ (hknown p flag (List.mem_singleton.mp hp).symm)
  after := h.after_append he hfresh
  nodup := by
    have hnone : e.waits = none := by
      cases e with
      | read pid => rfl
      | told pid flag =>
        have hflag : flag ≠ 1 := fun heq => he pid (heq ▸ rfl)
        simp [Event.waits, hflag]
    have hw := h.nodup
    simpa [waiters, hnone] using hw
  turn := by cases pc <;> exact hturn
  queue _ := hqueue

theorem Ordered.read_of_waiting (h : Ordered s) (hw : w ∈ waiting s.log) : .read w ∈ s.log :=
  h.known w 1 (mem_waiting.mp hw).1

theorem Ordered.dequeued (h : Ordered s) (hpc : s.pc = .dequeued c) :
    Ordered { s with log := s.log ++ [.told c 2], pc := .fork c } := by
  obtain ⟨xs, hq, hw⟩ := h.queue (by simp [hpc])
  simp only [hpc, ahead, behind, List.append_nil, List.singleton_append] at hw
  have hnodup : (waiting s.log).Nodup := h.nodup.filter _
  rw [hw] at hnodup
  have hc := (List.nodup_cons.mp hnodup).1
  refine h.event (h.inOrder.admitted fun v hsub => h.first hw hsub) (by simp) (by simp) ?_ trivial
    ⟨xs, hq, ?_⟩
  · rintro p flag heq
    cases heq
    exact h.read_of_waiting (by simp [hw])
  · have hkeep : xs.filter (· ≠ c) = xs := by
      refine List.filter_eq_self.mpr fun v hv => ?_
      have hne : v ≠ c := fun heq => hc (heq ▸ hv)
      simpa using hne
    simpa [waiting_admitted, hw, ahead, behind] using hkeep

theorem Ordered.connect (h : Ordered s) (hpc : s.pc = .connect c) :
    Ordered { s with log := s.log ++ [.told c 2], pc := .fork c } := by
  have hturn := h.turn
  simp only [hpc, Turn] at hturn
  obtain ⟨huntold, hempty⟩ := hturn
  obtain ⟨xs, hq, hw⟩ := h.queue (by simp [hpc])
  obtain rfl := hq.isEmpty_iff.mp hempty
  simp only [hpc, ahead, behind, List.append_nil] at hw
  refine h.event (h.inOrder.admitted fun v hsub => ?_) (by simp) (by simp) ?_ trivial ⟨[], hq, ?_⟩
  · -- nobody waits, so whoever was told so has been admitted
    by_contra hnot
    have hv : v ∈ waiting s.log := mem_waiting.mpr ⟨hsub.subset (by simp), hnot⟩
    simp [hw] at hv
  · rintro p flag heq
    cases heq
    exact huntold.1
  · simp [waiting_admitted, hw, ahead, behind]

theorem Ordered.refuse (h : Ordered s) (hpc : s.pc = .refuse pid) :
    Ordered { s with log := s.log ++ [.told pid 0], pc := .top } := by
  have hturn := h.turn
  simp only [hpc, Turn] at hturn
  have hqueue := h.queue (by simp [hpc])
  refine h.event (h.inOrder.append (by simp)) (by simp) (by simp) ?_ trivial ?_
  · rintro p flag heq
    cases heq
    exact hturn.1
  · rw [waiting_append (by simp) (by simp)]
    simpa [hpc, ahead, behind] using hqueue

theorem Ordered.wait (h : Ordered s) (hpc : s.pc = .wait pid) :
    Ordered { s with log := s.log ++ [.told pid 1], pc := .enqueue pid } := by
  have hturn := h.turn
  simp only [hpc, Turn] at hturn
  obtain ⟨hread, huntold⟩ := hturn
  obtain ⟨xs, hq, hw⟩ := h.queue (by simp [hpc])
  simp only [hpc, ahead, behind, List.append_nil, List.nil_append] at hw
  constructor
  case inOrder => exact h.inOrder.append (by simp)
  case known =>
    intro p flag hp
    rcases List.mem_append.mp hp with hp | hp
    · exact List.mem_append_left _ (h.known p flag hp)
    · cases List.mem_singleton.mp hp
      exact List.mem_append_left _ hread
  case after =>
    intro p hp x hsub
    have hsub' : [x, Event.read p].Sublist s.log := by
      rcases sublist_concat [x] hsub with hsub | ⟨heq, -⟩
      · exact hsub
      · contradiction
    by_cases hpp : p = pid
    · subst hpp
      have hx : x ∈ s.log := hsub'.subset (by simp)
      exact (List.singleton_sublist.mpr hx).append (List.Sublist.refl _)
    · have hold : Event.told p 1 ∈ s.log := by
        simpa [hpp] using hp
      exact (h.after p hold x hsub').trans (List.sublist_append_left _ _)
  case nodup =>
    have hnot : pid ∉ waiters s.log := fun hmem => huntold 1 (mem_waiters.mp hmem)
    have hnew : waiters (s.log ++ [.told pid 1]) = waiters s.log ++ [pid] := by
      simp [waiters, Event.waits]
    show (waiters (s.log ++ [.told pid 1])).Nodup
    rw [hnew]
    refine List.nodup_append.mpr ⟨h.nodup, List.nodup_singleton pid, ?_⟩
    rintro a ha b hb rfl
    exact hnot (List.mem_singleton.mp hb ▸ ha)
  case turn => trivial
  case queue =>
    intro _
    refine ⟨xs, hq, ?_⟩
    show waiting (s.log ++ [.told pid 1]) = _
    rw [waiting_wait (huntold 2), hw]
    rfl

theorem Ordered.request (h : Ordered s) (hpc : s.pc = .read) (hfresh : .read pid ∉ s.log)
    {mode : ℤ} (hmode : mode = 0 ∨ mode = 1) :
    Ordered { s with log := s.log ++ [.read pid], pc := .add pid mode 0 } := by
  have hqueue := h.queue (by simp [hpc])
  refine h.event (h.inOrder.append (by simp)) (by simp) ?_ (by simp) ⟨hmode, by simp, ?_⟩ ?_
  · rintro p heq
    cases heq
    exact hfresh
  · intro flag hmem
    simp only [List.mem_append, List.mem_singleton, reduceCtorEq, or_false] at hmem
    exact hfresh (h.known pid flag hmem)
  · rw [waiting_append (by simp) (by simp)]
    simpa [hpc, ahead, behind] using hqueue

theorem Ordered.serve (h : Ordered s) (hok : Queued s .serve) (hn : s.serve = some t) :
    Ordered t := by
  have hmove := serve_move hn
  have hturn := h.turn
  have hqueue := h.queue
  have hpcOk : QueuedAt s s.pc := hok
  generalize hpc : s.pc = pc at hmove hpcOk hturn hqueue
  have goto {pc' : ServerPc} {clients : List ℤ} (hrun : s.pc ≠ .stopped) (hturn' : Turn s pc')
      (ha : ahead pc' = ahead s.pc) (hb : behind pc' = behind s.pc) :
      Ordered { s with pc := pc', connectedClients := clients } :=
    h.same rfl rfl hrun (by cases pc' <;> exact hturn') ha hb
  cases hmove with
  | dequeue hne _ =>
    obtain ⟨xs, hq, hw⟩ := hqueue (by simp)
    cases xs with
    | nil => exact (hne (hq.empty rfl)).elim
    | cons x rest =>
      obtain ⟨hx, hrest⟩ := hq.dequeue
      refine ⟨h.inOrder, h.known, h.after, h.nodup, trivial, fun _ => ⟨rest, hrest, ?_⟩⟩
      simp [ahead, behind, hw, hx]
  | dequeued pid => exact h.dequeued hpc
  | poll | nothing =>
    exact goto (by simp [hpc]) trivial (by simp [hpc, ahead]) (by simp [hpc, behind])
  | fork pid =>
    exact h.same rfl rfl (by simp [hpc]) trivial (by simp [hpc, ahead]) (by simp [hpc, behind])
  | take pid mode i hget =>
    exact goto (by simp [hpc]) ⟨hturn.2, hpcOk hget⟩ (by simp [hpc, ahead]) (by simp [hpc, behind])
  | pass pid mode i _ _ =>
    exact goto (by simp [hpc]) hturn (by simp [hpc, ahead]) (by simp [hpc, behind])
  | full pid mode i _ hzero hone _ =>
    obtain ⟨hmode, huntold⟩ := hturn
    rcases hmode with hmode | hmode
    · rw [hzero hmode]
      exact goto (by simp [hpc]) huntold (by simp [hpc, ahead]) (by simp [hpc, behind])
    · rw [hone hmode]
      exact goto (by simp [hpc]) huntold (by simp [hpc, ahead]) (by simp [hpc, behind])
  | refuse pid => exact h.refuse hpc
  | wait pid => exact h.wait hpc
  | enqueue pid =>
    obtain ⟨xs, hq, hw⟩ := hqueue (by simp)
    have hqueued : (s.queue.enqueue pid).Holds (xs ++ [pid]) := hq.enqueue hpcOk
    refine ⟨h.inOrder, h.known, h.after, h.nodup, trivial, fun _ => ⟨xs ++ [pid], hqueued, ?_⟩⟩
    simpa [ahead, behind] using hw
  | connect pid => exact h.connect hpc

theorem handle_frame {i : ℕ} {step : HandlerStep} (hn : s.handle i step = some t) :
    t.log = s.log ∧ t.queue = s.queue ∧ t.pc = s.pc := by
  obtain ⟨l₁, l₂, pid, pc, -, hcases⟩ := handle_cases hn
  rcases hcases with ⟨-, -, rfl⟩ | ⟨v, -, rfl⟩ | ⟨-, -, rfl⟩ | ⟨-, rfl⟩ | ⟨-, -, rfl⟩
  all_goals exact ⟨rfl, rfl, rfl⟩

theorem ordered_inductive (maxClients : ℕ) :
    (bibo maxClients).Inductive (fun s a => Queued s a ∧ Fresh s a) Ordered where
  base s hs := by
    obtain ⟨-, -, ⟨items, hq⟩, hpc, -, hlog⟩ := hs
    refine ⟨?_, by simp [hlog], by simp [hlog], by simp [hlog, waiters], by simp [hpc, Turn],
      fun _ => ⟨[], hq ▸ Queue.holds_initializeQueue _, by simp [hlog, hpc, waiting, waiters, ahead,
        behind]⟩⟩
    intro w c hsub
    simp [hlog] at hsub
  keep s a t h hok hn := by
    cases a with
    | serve => exact h.serve hok.1 hn
    | request pid mode =>
      simp only [bibo, Server.next] at hn
      split at hn
      · next hreq =>
        cases hn
        exact h.request hreq.1 hok.2 hreq.2.2
      · contradiction
    | stop =>
      simp only [bibo, Server.next] at hn
      split at hn
      · contradiction
      · cases hn
        exact ⟨h.inOrder, h.known, h.after, h.nodup, trivial, fun hr => (hr rfl).elim⟩
    | handler i step =>
      obtain ⟨hlog, hqueue, hpc⟩ := handle_frame hn
      refine ⟨hlog ▸ h.inOrder, hlog ▸ h.known, hlog ▸ h.after, hlog ▸ h.nodup, ?_, ?_⟩
      · have hturn := h.turn
        rw [hpc]
        cases hp : s.pc <;> simp only [hp, Turn, Untold, hlog, hqueue] at hturn ⊢ <;> exact hturn
      · rw [hlog, hqueue, hpc]
        exact h.queue

end Steps

/-- While no free entry is found past the waiting clients and the queue has
room, clients are admitted in the order of their requests. -/
theorem admitted_in_order (maxClients : ℕ) (s : Server)
    (hr : (bibo maxClients).Reaches (fun s a => Queued s a ∧ Fresh s a) s) : InOrder s.log :=
  ((ordered_inductive maxClients).holds hr).inOrder

/-- With one slot: a client that is served, and two that wait. The counter is
seen before the child has changed it, so the first of them is admitted. -/
def firstOfTwo : List Action :=
  Action.visit 11 0 3 ++ Action.visit 12 1 4 ++ [.serve, .serve, .serve, .handler 0 .load,
    .handler 0 .store, .handler 1 .load, .handler 1 .store] ++ Action.visit 13 1 4

theorem firstOfTwo_in_order : ∃ s, (bibo 1).Reaches (fun s a => Queued s a ∧ Fresh s a) s ∧
    s.log = [.read 11, .told 11 2, .read 12, .told 12 1, .told 12 2, .read 13, .told 13 1] ∧
    InOrder s.log := by
  have hrun : (((bibo 1).guarded fun s a => Queued s a ∧ Fresh s a).run (.init 1) firstOfTwo).map
      Server.log = some [.read 11, .told 11 2, .read 12, .told 12 1, .told 12 2, .read 13,
        .told 13 1] := by decide
  obtain ⟨s, hs, hlog⟩ := Option.map_eq_some_iff.mp hrun
  have hr := Machine.Reaches.run (.start (Server.init_start 1)) _ hs
  exact ⟨s, hr, hlog, admitted_in_order 1 s hr⟩

def WaitingOrderKept (maxClients : ℕ) : Prop :=
  ∀ s, (bibo maxClients).Reaches Fresh s → InOrder s.log

/-- The served client quits: the entry it clears goes to the next request, the
waiting client is told nothing. -/
theorem overtaken : ¬ WaitingOrderKept 1 := by
  intro h
  have hrun : (((bibo 1).guarded Fresh).run (.init 1) (Action.visit 11 0 3 ++
      [.handler 0 .load, .handler 0 .store] ++ Action.visit 12 1 4 ++ [.handler 0 .quit] ++
      Action.visit 13 0 2)).map Server.log
      = some [.read 11, .told 11 2, .read 12, .told 12 1, .read 13, .told 13 2] := by decide
  obtain ⟨s, hs, hlog⟩ := Option.map_eq_some_iff.mp hrun
  have hr := Machine.Reaches.run (.start (Server.init_start 1)) _ hs
  have horder := h s hr 12 13 (by rw [hlog]; decide)
  rw [hlog] at horder
  exact absurd horder (by decide)

end AdvancedCProjects.Bibo
