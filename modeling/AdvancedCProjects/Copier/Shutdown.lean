import AdvancedCProjects.Copier.Tasks

/-!
# The end of the workers (program.c:307-329, 560-569)

`main` sets `done` under `output_mutex` and broadcasts under no mutex, while a
worker tests `done` under `buffer_mutex`. A worker that has tested it and is not
asleep yet does not hear the broadcast.
-/

namespace AdvancedCProjects.Copier
open Base

/-- `main` has broadcast `buffer_not_empty`. -/
def Announced (s : State) : Prop :=
  match s.main with
  | .joinWorker _ | .report => True
  | .returned => s.done = true
  | _ => False

/-- When `main` broadcasts, no worker stands between its test of the loop
condition and its sleep. -/
def Heard (s : State) : Action → Prop
  | .main _ => s.main = .broadcast → .wait ∉ s.workers
  | _ => True

instance (s : State) : DecidablePred (Heard s)
  | .main _ => inferInstanceAs (Decidable (s.main = .broadcast → .wait ∉ s.workers))
  | .traverse _ _ | .work _ _ | .spurious _ => inferInstanceAs (Decidable True)

/-- Nobody sleeps or is about to, once `main` has broadcast. -/
structure Awake (s : State) : Prop where
  unset : s.main = .createRoot ∨ s.main = .createWorkers → s.done = false
  done : s.main = .unlockOutput ∨ s.main = .broadcast ∨ Announced s → s.done = true
  up : Announced s → .wait ∉ s.workers ∧ .asleep ∉ s.workers

section Steps
variable {size threads i : ℕ} {s t u : State} {th th' : Traversal} {pc pc' : WorkerPc}
  {tpc tpc' : TraversalPc} {mpc' : MainPc} {a : Action}

theorem main_frame (hn : (copier size threads).next s a = some t) (ha : ∀ r, a ≠ .main r) :
    t.main = s.main := by
  cases copier_acts hn with
  | main => exact (ha _ rfl).elim
  | traverse hth hn =>
    obtain ⟨th', u, -, -, hmove, rfl⟩ := State.traverse_move hth hn rfl
    exact hmove.wakes.1
  | work _ hn =>
    obtain ⟨pc', u, hmove, rfl⟩ := State.work_move hn
    exact hmove.wakes.1
  | spuriousTraversal hu => cases hu <;> rfl
  | spuriousWorker hu => cases hu <;> rfl

theorem main_next {r : Reply} (hn : (copier size threads).next s (.main r) = some t) :
    ∃ pc' u, MainMove threads s s.main pc' u ∧ t = u.mainAt pc' := by
  cases copier_acts hn with
  | main hmove => exact ⟨_, _, hmove, rfl⟩

theorem MainMove.broadcasts (h : MainMove threads s .broadcast mpc' u) :
    mpc' = .joinWorker 0 ∧ u.workers = s.workers.map WorkerPc.wake := by
  cases h with
  | giveUp hpc => rcases hpc with hpc | hpc <;> contradiction
  | broadcast => exact ⟨rfl, rfl⟩

theorem Announced.congr (hm : t.main = s.main) (hd : t.done = s.done) :
    Announced t ↔ Announced s := by
  simp only [Announced, hm, hd]

theorem Awake.frame (h : Awake s) (hm : t.main = s.main) (hd : t.done = s.done)
    (hw : Announced s → ∀ pc ∈ t.workers, pc ∈ s.workers ∨ pc ≠ .wait ∧ pc ≠ .asleep) :
    Awake t := by
  have hiff := Announced.congr hm hd
  refine ⟨fun hp => hd ▸ h.unset (hm ▸ hp), fun hp => hd ▸ h.done (by rwa [← hiff, ← hm]),
    fun ha => ?_⟩
  obtain ⟨hwait, hsleep⟩ := h.up (hiff.mp ha)
  constructor
  · exact fun hmem => (hw (hiff.mp ha) _ hmem).elim hwait fun hne => hne.1 rfl
  · exact fun hmem => (hw (hiff.mp ha) _ hmem).elim hsleep fun hne => hne.2 rfl

theorem WorkerMove.awake (h : WorkerMove size s i pc pc' u) (hd : s.done = true)
    (hw : pc ≠ .wait) : pc' ≠ .wait ∧ pc' ≠ .asleep := by
  cases h with
  | wait he hd' =>
    rw [hd] at hd'
    contradiction
  | sleep => exact (hw rfl).elim
  | copying m stats written hh hh' htodo htodo' =>
    constructor <;> rintro rfl <;> exact htodo htodo'.symm
  | _ => exact ⟨by simp, by simp⟩

theorem Awake.work (h : Awake s) (hpc : s.workers[i]? = some pc)
    (hmove : WorkerMove size s i pc pc' u) : Awake (u.workerAt i pc') := by
  obtain ⟨hmain, hworkers, -⟩ := hmove.wakes
  refine h.frame hmain hmove.done fun ha pc'' hmem => ?_
  have hd := h.done (.inr (.inr ha))
  have hw : pc ≠ .wait := by
    rintro rfl
    exact (h.up ha).1 (List.mem_of_getElem? hpc)
  simp only [State.workerAt, hworkers] at hmem
  rcases List.mem_or_eq_of_mem_set hmem with hold | rfl
  · exact .inl hold
  · exact .inr (hmove.awake hd hw)

theorem Awake.traverse (h : Awake s) (hmove : TraversalMove size s i th tpc tpc' u) :
    Awake (u.traversalAt i th') := by
  obtain ⟨hmain, ⟨v, hv, -, hws⟩, -⟩ := hmove.wakes
  refine h.frame hmain hmove.handled.1 fun _ pc hmem => ?_
  simp only [State.traversalAt, hws] at hmem
  obtain ⟨j, hj⟩ := List.mem_iff_getElem?.mp hmem
  rcases hv.get hj with rfl | hold
  · exact .inr ⟨by simp, by simp⟩
  · exact .inl (List.mem_of_getElem? hold)

theorem Awake.wakesWorker (h : Awake s) (hu : s.WakesWorker u) : Awake u := by
  have hw (pc : WorkerPc) (hmem : pc ∈ u.workers) :
      pc ∈ s.workers ∨ pc ≠ .wait ∧ pc ≠ .asleep := by
    obtain ⟨j, hj⟩ := List.mem_iff_getElem?.mp hmem
    rcases hu.get hj with rfl | hold
    · exact .inr ⟨by simp, by simp⟩
    · exact .inl (List.mem_of_getElem? hold)
  cases hu with
  | nobody => exact h
  | one hj => exact h.frame rfl rfl fun _ => hw

theorem Awake.wakesTraversal (h : Awake s) (hu : s.WakesTraversal u) : Awake u := by
  cases hu with
  | nobody => exact h
  | one => exact h.frame rfl rfl fun _ _ => .inl

theorem WorkerPc.wake_ne_asleep (pc : WorkerPc) : pc.wake ≠ .asleep := by
  cases pc <;> simp [WorkerPc.wake]

theorem WorkerPc.wake_eq_wait {pc : WorkerPc} : pc.wake = .wait ↔ pc = .wait := by
  cases pc <;> simp [WorkerPc.wake]

theorem wait_mem_wake : .wait ∈ s.workers.map WorkerPc.wake ↔ .wait ∈ s.workers := by
  simp only [List.mem_map, WorkerPc.wake_eq_wait, exists_eq_right]

/-- The broadcast reaches those asleep, and the condition says that there are no
others. -/
theorem Awake.main (h : Awake s) (hheard : s.main = .broadcast → .wait ∉ s.workers)
    (hmove : MainMove threads s s.main mpc' u) : Awake (u.mainAt mpc') := by
  generalize hm : s.main = mpc at hmove
  have hunset := h.unset
  have hdone := h.done
  have hup := h.up
  simp only [Announced, hm] at hunset hdone hup
  cases hmove with
  | createRoot =>
    refine ⟨fun _ => hunset (.inl rfl), by simp [Announced, State.mainAt], fun ha => ?_⟩
    cases ha
  | giveUp hpc =>
    have hd := hunset hpc
    refine ⟨fun _ => hd, ?_, fun ha => ?_⟩
    · rintro (hp | hp | ha)
      · contradiction
      · contradiction
      · exact ha
    · have ha : s.done = true := ha
      rw [hd] at ha
      contradiction
  | createWorker =>
    refine ⟨fun _ => hunset (.inr rfl), by simp [Announced, State.mainAt], fun ha => ?_⟩
    cases ha
  | created | joinRoot | lockOutput =>
    exact ⟨by simp [State.mainAt], by simp [Announced, State.mainAt], fun ha => by cases ha⟩
  | setDone => exact ⟨by simp [State.mainAt], fun _ => rfl, fun ha => by cases ha⟩
  | unlockOutput => exact ⟨by simp [State.mainAt], fun _ => hdone (.inl rfl), fun ha => by cases ha⟩
  | broadcast =>
    refine ⟨by simp [State.mainAt], fun _ => hdone (.inr (.inl rfl)), fun _ => ⟨?_, ?_⟩⟩
    · exact fun hmem => hheard hm (wait_mem_wake.mp hmem)
    · intro hmem
      obtain ⟨pc, -, hpc⟩ := List.mem_map.mp hmem
      exact pc.wake_ne_asleep hpc
  | joinWorker | joinedAll | report =>
    exact ⟨by simp [State.mainAt], fun _ => hdone (.inr (.inr trivial)), fun _ => hup trivial⟩

theorem Awake.step (h : Awake s)
    (hheard : s.main = .broadcast → t.main ≠ s.main → .wait ∉ s.workers)
    (hstep : Step size threads s t) : Awake t := by
  cases hstep with
  | main hmove =>
    refine h.main (fun hm => hheard hm fun hsame => ?_) hmove
    rw [hm] at hmove hsame
    have hpc : _ = MainPc.broadcast := hsame
    rw [hmove.broadcasts.1] at hpc
    contradiction
  | traverse _ _ _ hmove => exact h.traverse hmove
  | work hpc hmove => exact h.work hpc hmove
  | spuriousTraversal hu => exact h.wakesTraversal hu
  | spuriousWorker hu => exact h.wakesWorker hu

theorem awake_inductive (size threads : ℕ) :
    (copier size threads).Inductive Heard Awake where
  base s hs := by
    refine ⟨fun _ => hs.done, ?_, ?_⟩ <;> simp [Announced, hs.main]
  keep s a t h hheard hn := by
    refine h.step (fun hm hne => ?_) (copier_step hn)
    by_cases ha : ∃ r, a = .main r
    · obtain ⟨r, rfl⟩ := ha
      exact hheard hm
    · exact absurd (main_frame hn fun r hr => ha ⟨r, hr⟩) hne

theorem Announced.not_broadcast (h : Announced s) : s.main ≠ .broadcast := by
  intro hm
  simp only [Announced, hm] at h

theorem Announced.step (h : Announced s) (hawake : Awake s) (hstep : Step size threads s t) :
    Announced t := by
  have hd := hawake.done (.inr (.inr h))
  cases hstep with
  | main hmove =>
    generalize hm : s.main = mpc at hmove
    simp only [Announced, hm] at h
    cases hmove with
    | joinWorker | joinedAll => trivial
    | report => exact hd
    | giveUp hpc => rcases hpc with rfl | rfl <;> exact h.elim
    | _ => exact h.elim
  | traverse _ _ _ hmove => exact (Announced.congr hmove.wakes.1 hmove.handled.1).mpr h
  | work _ hmove => exact (Announced.congr hmove.wakes.1 hmove.done).mpr h
  | spuriousTraversal hu => cases hu <;> exact h
  | spuriousWorker hu => cases hu <;> exact h

/-- Once nobody sleeps after the broadcast, nobody ever will. -/
theorem Awake.path (h : Awake s) (ha : Announced s)
    (hp : (copier size threads).Path₀ (fun _ _ => True) s t) : .asleep ∉ t.workers := by
  have hkeep := hp.keep (I := fun u => Awake u ∧ Announced u) ⟨h, ha⟩ fun u a v ⟨hu, hau⟩ _ hn =>
    have hstep := copier_step hn
    ⟨hu.step (fun hm => (hau.not_broadcast hm).elim) hstep, hau.step hu hstep⟩
  exact (hkeep.1.up hkeep.2).2

/-- A worker that was about to sleep when `main` broadcast goes to sleep. -/
theorem asleep_of_wait (hm : s.main = .joinWorker i) (hw : .wait ∈ s.workers) :
    ∃ t, (copier size threads).Path₀ (fun _ _ => True) s t ∧ Announced t ∧
      .asleep ∈ t.workers := by
  obtain ⟨j, hj⟩ := List.mem_iff_getElem?.mp hw
  have hlt := (List.getElem?_eq_some_iff.mp hj).1
  refine ⟨(s.workerAt j .asleep).unlockBuffer, .single ⟨.work j .ok, trivial, ?_⟩, ?_, ?_⟩
  · simp [copier, State.next, hm, hj, State.work]
  · simp [Announced, State.workerAt, State.unlockBuffer, hm]
  · exact List.mem_of_getElem? (List.getElem?_set_self hlt)

end Steps

/-- While the broadcasts are heard no worker sleeps after one; and a broadcast
strands no worker exactly when it is heard. -/
theorem nobody_stranded {size threads : ℕ} {s : State}
    (hr : (copier size threads).Reaches Heard s) :
    (Announced s → .asleep ∉ s.workers) ∧
    ∀ r t, s.main = .broadcast → (copier size threads).next s (.main r) = some t →
      ((∀ u, (copier size threads).Path₀ (fun _ _ => True) t u → .asleep ∉ u.workers) ↔
        Heard s (.main r)) := by
  have h := (awake_inductive size threads).holds hr
  refine ⟨fun ha => (h.up ha).2, fun r t hm hn => ⟨fun hall _ hw => ?_, fun hheard u hp => ?_⟩⟩
  · have ht : t.main = .joinWorker 0 ∧ .wait ∈ t.workers := by
      obtain ⟨pc', u, hmove, rfl⟩ := main_next hn
      obtain ⟨hpc, hworkers⟩ := MainMove.broadcasts (hm ▸ hmove)
      exact ⟨hpc, by simpa only [State.mainAt, hworkers, wait_mem_wake] using hw⟩
    obtain ⟨u, hp, -, hsleep⟩ := asleep_of_wait ht.1 ht.2
    exact hall u hp hsleep
  · have ht := (awake_inductive size threads).keep s (.main r) t h hheard hn
    refine ht.path ?_ hp
    obtain ⟨pc', u, hmove, rfl⟩ := main_next hn
    obtain ⟨rfl, -⟩ := MainMove.broadcasts (hm ▸ hmove)
    trivial

/-- The source cannot be opened; the worker takes `steps` steps before `main`
goes on to the broadcast. -/
def emptyRun (steps : ℕ) : List Action :=
  List.replicate 3 (.main .ok) ++ [.failure, .ok, .ok, .ok].map (.traverse 0) ++
  List.replicate steps (.work 0 .ok) ++ List.replicate 5 (.main .ok)

def heardState : State := (((copier 2 1).guarded Heard).run .init (emptyRun 3)).get (by decide)

theorem sleeper_woken : heardState.main = .joinWorker 0 ∧ heardState.workers = [.woken] ∧
    (Announced heardState → .asleep ∉ heardState.workers) := by
  have hr : (copier 2 1).Reaches Heard heardState :=
    .run (.start State.init_start) (emptyRun 3) (Option.some_get _).symm
  exact ⟨by decide, by decide, (nobody_stranded hr).1⟩

def NobodyStranded (size threads : ℕ) : Prop :=
  ∀ s, (copier size threads).Reachable s → Announced s → .asleep ∉ s.workers

/-- The worker has found the buffer empty and `done` not set; it sleeps after the
broadcast. -/
theorem worker_stranded : ¬ NobodyStranded 2 1 := by
  intro h
  have hrun : ((copier 2 1).run .init (emptyRun 2 ++ [.work 0 .ok])).map
      (fun s => (s.main, s.workers)) = some (.joinWorker 0, [.asleep]) := by decide
  obtain ⟨s, hs, hf⟩ := Option.map_eq_some_iff.mp hrun
  obtain ⟨hmain, hworkers⟩ := Prod.mk.inj hf
  have hr := Machine.Reachable.run (.start State.init_start) _ hs
  refine h s hr ?_ (hworkers ▸ List.mem_cons_self)
  simp [Announced, hmain]

end AdvancedCProjects.Copier
