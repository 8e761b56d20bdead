import AdvancedCProjects.Copier.Nesting
import AdvancedCProjects.Copier.Shutdown

/-!
# No lost wake-up (program.c:307-329, 382-409)

A worker goes to sleep on an empty buffer and the producer on a full one, both
under `buffer_mutex`; whoever changes that signals before it gives the mutex
back. So the buffer is in order for the sleepers whenever the mutex is free.
-/

namespace AdvancedCProjects.Copier
open Base

/-- Some worker is not asleep; one that has not been started yet counts. -/
def Available (threads : ℕ) (s : State) : Prop := ∃ j < threads, s.workers[j]? ≠ some .asleep

/-- The worker has taken a task and has not signalled yet. -/
def WorkerPc.emptying (pc : WorkerPc) : Prop := pc.todo ≠ [] ∨ pc = .signal

structure Progress (size threads : ℕ) (s : State) : Prop where
  started : s.workers.length ≤ threads
  waiting : ∀ j : ℕ, s.workers[j]? = some .wait → s.buffer.inp = s.buffer.out
  blocked : ∀ (k : ℕ) (th : Traversal) (file : OpenFile), s.traversals[k]? = some th →
    th.pc = .wait file → (s.buffer.inp + 1) % size = s.buffer.out
  stocked : s.buffer.inp ≠ s.buffer.out →
    Available threads s ∨ ∃ (k : ℕ) (th : Traversal), s.traversals[k]? = some th ∧ th.pc = .signal
  roomy : ∀ (k : ℕ) (th : Traversal), s.traversals[k]? = some th → th.pc.isAsleep = true →
    (s.buffer.inp + 1) % size = s.buffer.out ∨
      ∃ (j : ℕ) (pc : WorkerPc), s.workers[j]? = some pc ∧ pc.emptying

section Steps
variable {size threads i j k : ℕ} {s t u : State} {th th' : Traversal} {pc pc' : WorkerPc}
  {tpc tpc' : TraversalPc} {mpc' : MainPc} {r : Reply}

/-! ### Signals -/

theorem State.signalNotEmpty_heard (h : s.signalNotEmpty r = some t) :
    .woken ∈ t.workers ∨ .asleep ∉ t.workers := by
  simp only [signalNotEmpty] at h
  split at h
  · simp only [wakeWorker] at h
    split at h
    · next j hj =>
      cases h
      exact .inl (List.mem_of_getElem? (List.getElem?_set_self (List.getElem?_eq_some_iff.mp hj).1))
    · contradiction
  · split at h
    · contradiction
    · next hnone =>
      cases h
      exact .inr hnone
  · contradiction

theorem State.signalNotFull_heard (h : s.signalNotFull r = some t)
    (hone : ∀ (j k : ℕ) (th th' : Traversal), s.traversals[j]? = some th →
      s.traversals[k]? = some th' → th.pc.isAsleep = true → th'.pc.isAsleep = true → j = k)
    (hk : t.traversals[k]? = some th) : th.pc.isAsleep = false := by
  simp only [signalNotFull] at h
  split at h
  · next j =>
    simp only [wakeTraversal] at h
    split at h
    · next x hx =>
      split at h
      · next hasleep =>
        cases h
        by_cases hjk : j = k
        · subst hjk
          rw [List.getElem?_set_self (List.getElem?_eq_some_iff.mp hx).1] at hk
          cases hk
          cases hpc : x.pc <;> simp [hpc, TraversalPc.wake, TraversalPc.isAsleep] at hasleep ⊢
        · rw [List.getElem?_set_ne hjk] at hk
          by_contra htrue
          exact hjk (hone j k x th hx hk hasleep (by simpa using htrue))
      · contradiction
    · contradiction
  · split at h
    · contradiction
    · next hnone =>
      cases h
      by_contra htrue
      exact hnone (List.any_eq_true.mpr ⟨th, List.mem_of_getElem? hk, by simpa using htrue⟩)
  · contradiction

theorem acts_of_asleep {pc : TraversalPc} (h : pc.isAsleep = true) : pc.acts = true := by
  cases pc <;> first | rfl | contradiction

theorem Chain.sleeper_unique {ts : List Traversal} (h : Chain ts) (hj : ts[j]? = some th)
    (hk : ts[k]? = some th') (hasleep : th.pc.isAsleep = true) (hact : th'.pc.acts = true) :
    j = k := by
  exact h.acts_unique hj hk (acts_of_asleep hasleep) hact

/-! ### Workers -/

theorem Available.of_worker (hs : s.workers.length ≤ threads) (hi : s.workers[i]? = some pc)
    (hpc : pc ≠ .asleep) : Available threads s := by
  have hlt := (List.getElem?_eq_some_iff.mp hi).1
  refine ⟨i, by omega, ?_⟩
  rw [hi]
  exact fun he => hpc (Option.some.inj he)

theorem WorkerMove.asleep (h : WorkerMove size s i pc pc' u) (hpc' : pc' = .asleep) :
    pc = .wait ∧ u.buffer = s.buffer := by
  subst hpc'
  generalize hp : WorkerPc.asleep = p at h
  cases h with
  | sleep => exact ⟨rfl, rfl⟩
  | copying _ _ _ _ hh =>
    rw [← hp] at hh
    contradiction
  | _ => contradiction

theorem WorkerMove.waits (h : WorkerMove size s i pc pc' u) (hpc' : pc' = .wait) :
    u.buffer = s.buffer ∧ s.buffer.inp = s.buffer.out := by
  subst hpc'
  generalize hp : WorkerPc.wait = p at h
  cases h with
  | wait hempty => exact ⟨rfl, hempty⟩
  | copying _ _ _ _ _ htodo heq =>
    rw [← hp] at heq
    exact absurd heq.symm htodo
  | _ => contradiction

theorem WorkerPc.emptying.holds (h : pc.emptying) : pc.holds = true := by
  cases pc <;> first | rfl | exact absurd rfl (h.resolve_right (by simp))

theorem WorkerPc.emptying.ne_asleep (h : pc.emptying) : pc ≠ .asleep := by
  rintro rfl
  exact absurd h.holds (by simp [WorkerPc.holds])

theorem WorkerMove.emptying (h : WorkerMove size s i pc pc' u) (hsignal : pc ≠ .signal)
    (hpc : pc.emptying) : pc'.emptying := by
  have htodo : pc.todo ≠ [] := hpc.resolve_right hsignal
  cases h with
  | enter hp => rcases hp with rfl | rfl <;> exact absurd rfl htodo
  | copying _ _ _ _ _ _ heq => exact .inl (heq ▸ htodo)
  | closeDest => exact .inr rfl
  | copy | closeSrc => exact .inl (by simp [WorkerPc.todo])
  | _ => exact absurd rfl htodo

theorem Locked.apart (h : Locked s) (hpc : s.workers[i]? = some pc)
    (hth : s.traversals[k]? = some th) (hh : pc.holds = true) (hh' : th.pc.holds = true) :
    False := by
  have hw := h.workers.eq_of_holds hpc hh
  rw [h.traversals.eq_of_holds hth hh'] at hw
  exact worker_ne_traversal i k (Option.some.inj hw).symm

theorem Progress.work (h : Progress size threads s) (hn : Nested s)
    (hpc : s.workers[i]? = some pc) (hsignal : pc ≠ .signal)
    (hmove : WorkerMove size s i pc pc' u) : Progress size threads (u.workerAt i pc') := by
  have hi := (List.getElem?_eq_some_iff.mp hpc).1
  obtain ⟨-, hworkers, v, hv, -, hts⟩ := hmove.wakes
  have hbuffer (hh : pc.holds = false) : u.buffer = s.buffer := by
    refine hmove.buffer.resolve_right fun htake => ?_
    rw [htake.1] at hh
    contradiction
  have hwoken {k : ℕ} {x : Traversal} (hk : u.traversals[k]? = some x) (file : OpenFile)
      (hx : x.pc = .wait file ∨ x.pc = .asleep file) : s.traversals[k]? = some x := by
    rw [hts] at hk
    refine (hv.get hk).resolve_left fun ⟨file', hf⟩ => ?_
    rw [hf] at hx
    rcases hx with hx | hx <;> contradiction
  constructor
  case started => simpa [State.workerAt, hworkers] using h.started
  case waiting =>
    intro j hj
    show u.buffer.inp = u.buffer.out
    simp only [State.workerAt, hworkers] at hj
    rcases getElem?_set_some hj with ⟨-, heq⟩ | ⟨hji, hold⟩
    · obtain ⟨hb, hempty⟩ := hmove.waits heq.symm
      rw [hb]
      exact hempty
    · have hh : pc.holds = false := by
        rw [Bool.eq_false_iff]
        intro hh
        exact hji (hn.locked.workers.unique worker_injective hold hpc rfl hh)
      rw [hbuffer hh]
      exact h.waiting j hold
  case blocked =>
    intro k x file hk hx
    show (u.buffer.inp + 1) % size = u.buffer.out
    have hold := hwoken hk file (.inl hx)
    have hh : pc.holds = false := by
      rw [Bool.eq_false_iff]
      intro hh
      exact hn.locked.apart hpc hold hh (by rw [hx]; rfl)
    rw [hbuffer hh]
    exact h.blocked k x file hold hx
  case stocked =>
    intro hne
    by_cases hsleep : pc' = .asleep
    · obtain ⟨rfl, hb⟩ := hmove.asleep hsleep
      have hempty := h.waiting i hpc
      rw [← hb] at hempty
      exact absurd hempty hne
    · left
      refine Available.of_worker (i := i) (?_ : _ ≤ threads) (?_ : _ = some pc') ?_
      · simpa [State.workerAt, hworkers] using h.started
      · simp [State.workerAt, hworkers, hi]
      · exact hsleep
  case roomy =>
    intro k x hk hasleep
    have hfile : ∃ file, x.pc = .asleep file := by
      cases hx : x.pc <;> simp [hx, TraversalPc.isAsleep] at hasleep
      exact ⟨_, rfl⟩
    obtain ⟨file, hx⟩ := hfile
    have hold := hwoken hk file (.inr hx)
    rcases hmove.buffer with hb | ⟨-, rfl, -, -⟩
    · rcases h.roomy k x hold hasleep with hfull | ⟨j, pc₀, hj, hempty⟩
      · left
        show (u.buffer.inp + 1) % size = u.buffer.out
        rw [hb]
        exact hfull
      · right
        by_cases hij : i = j
        · subst hij
          rw [hpc] at hj
          cases hj
          exact ⟨i, pc', by simp [State.workerAt, hworkers, hi], hmove.emptying hsignal hempty⟩
        · exact ⟨j, pc₀, by simp [State.workerAt, hworkers, List.getElem?_set_ne hij, hj], hempty⟩
    · right
      refine ⟨i, .copy (s.buffer.slots s.buffer.out), ?_, .inl ?_⟩
      · simp [State.workerAt, hworkers, hi]
      · simp [WorkerPc.todo, Task.handling]

theorem State.WakesTraversal.frame (h : s.WakesTraversal u) :
    u.buffer = s.buffer ∧ u.workers = s.workers := by
  cases h <;> exact ⟨rfl, rfl⟩

theorem State.WakesWorker.frame (h : s.WakesWorker u) :
    u.buffer = s.buffer ∧ u.traversals = s.traversals ∧ u.workers.length = s.workers.length := by
  cases h with
  | nobody => exact ⟨rfl, rfl, rfl⟩
  | one => exact ⟨rfl, rfl, List.length_set⟩

theorem State.WakesWorker.emptying (h : s.WakesWorker u)
    (hs : ∃ (j : ℕ) (pc : WorkerPc), s.workers[j]? = some pc ∧ pc.emptying) :
    ∃ (j : ℕ) (pc : WorkerPc), u.workers[j]? = some pc ∧ pc.emptying := by
  obtain ⟨j, pc, hj, hempty⟩ := hs
  cases h with
  | nobody => exact ⟨j, pc, hj, hempty⟩
  | @one k hk =>
    have hne : k ≠ j := by
      rintro rfl
      rw [hk] at hj
      cases hj
      exact hempty.ne_asleep rfl
    exact ⟨j, pc, by rw [List.getElem?_set_ne hne, hj], hempty⟩

theorem State.WakesWorker.available (h : s.WakesWorker u) (hs : Available threads s) :
    Available threads u := by
  obtain ⟨j, hlt, hj⟩ := hs
  refine ⟨j, hlt, fun hu => ?_⟩
  rcases h.get hu with heq | hold
  · contradiction
  · exact hj hold

/-- The worker has signalled, and the sleeper, if there was one, is up. -/
theorem Progress.signalNotFull (h : Progress size threads s) (hn : Nested s)
    (hpc : s.workers[i]? = some .signal) (hs : (s.workerAt i .unlock).signalNotFull r = some t) :
    Progress size threads t := by
  have hi := (List.getElem?_eq_some_iff.mp hpc).1
  have hwakes := State.signalNotFull_wakes hs
  obtain ⟨hb, hworkers⟩ := hwakes.frame
  have hb : t.buffer = s.buffer := hb
  have hworkers : t.workers = s.workers.set i .unlock := hworkers
  have hone (j k : ℕ) (x y : Traversal) (hj : s.traversals[j]? = some x)
      (hk : s.traversals[k]? = some y) (hx : x.pc.isAsleep = true) (hy : y.pc.isAsleep = true) :
      j = k := hn.serial.chain.sleeper_unique hj hk hx (acts_of_asleep hy)
  constructor
  case started => simpa [hworkers] using h.started
  case waiting =>
    intro j hj
    rw [hworkers] at hj
    rw [hb]
    rcases getElem?_set_some hj with ⟨-, heq⟩ | ⟨-, hold⟩
    · contradiction
    · exact h.waiting j hold
  case blocked =>
    intro k x file hk hx
    rw [hb]
    refine h.blocked k x file ((hwakes.get hk).resolve_left fun ⟨file', hf⟩ => ?_) hx
    rw [hf] at hx
    contradiction
  case stocked =>
    intro _
    left
    refine Available.of_worker (i := i) (?_ : _ ≤ threads) (?_ : _ = some .unlock) ?_
    · simpa [hworkers] using h.started
    · rw [hworkers, List.getElem?_set_self hi]
    · simp
  case roomy =>
    intro k x hk hasleep
    rw [State.signalNotFull_heard hs hone hk] at hasleep
    contradiction

/-! ### The traversal -/

theorem TraversalMove.waits (h : TraversalMove size s i th tpc tpc' u) {file : OpenFile}
    (hpc' : tpc' = .wait file) :
    u.buffer = s.buffer ∧ (s.buffer.inp + 1) % size = s.buffer.out := by
  generalize hp : tpc' = p at h
  rw [hpc'] at hp
  cases h with
  | wait _ hfull => exact ⟨rfl, hfull⟩
  | step _ _ hl =>
    have hout := hl.outside'
    rw [← hp] at hout
    contradiction
  | _ => contradiction

theorem TraversalMove.sleeps (h : TraversalMove size s i th tpc tpc' u)
    (hpc' : tpc'.isAsleep = true) : u.buffer = s.buffer ∧ ∃ file, tpc = .wait file := by
  cases h with
  | sleep file => exact ⟨rfl, file, rfl⟩
  | step _ _ hl =>
    rw [hl.up] at hpc'
    contradiction
  | _ => contradiction

theorem Progress.traverse (h : Progress size threads s) (hn : Nested s)
    (hth : s.traversals[i]? = some th) (hsignal : th.pc ≠ .signal)
    (hmove : TraversalMove size s i th th.pc th'.pc u) :
    Progress size threads (u.traversalAt i th') := by
  have hi := (List.getElem?_eq_some_iff.mp hth).1
  obtain ⟨-, ⟨v, hv, -, hws⟩, hts⟩ := hmove.wakes
  have hlength : u.workers.length = s.workers.length := by rw [hws, hv.frame.2.2]
  have hbuffer (hadd : ∀ file, th.pc ≠ .add file) : u.buffer = s.buffer := by
    rcases hmove.buffer with ⟨hb, -⟩ | ⟨file, a, hpc, -⟩
    · exact hb
    · exact absurd hpc (hadd file)
  constructor
  case started => exact hlength ▸ h.started
  case waiting =>
    intro j hj
    show u.buffer.inp = u.buffer.out
    have hold : s.workers[j]? = some .wait := (hv.get (hws ▸ hj)).resolve_left (by simp)
    rw [hbuffer fun file hpc => hn.locked.apart hold hth rfl (by rw [hpc]; rfl)]
    exact h.waiting j hold
  case blocked =>
    intro k x file hk hx
    show (u.buffer.inp + 1) % size = u.buffer.out
    rcases hmove.get hk with rfl | ⟨hne, hold⟩ | hnew
    · obtain ⟨hb, hfull⟩ := hmove.waits hx
      rw [hb]
      exact hfull
    · rw [hbuffer]
      · exact h.blocked k x file hold hx
      · intro file' hpc
        apply hne
        apply hn.locked.traversals.unique traversal_injective hold hth
        · rw [hx]
          rfl
        · rw [hpc]
          rfl
    · rw [hx] at hnew
      contradiction
  case stocked =>
    intro hne
    have hget : (u.traversals.set i th')[i]? = some th' := by
      apply List.getElem?_set_self
      rcases hts with hts | hts
      · rwa [hts]
      · rw [hts, List.length_append]
        omega
    rcases hmove.buffer with ⟨hb, -⟩ | ⟨file, a, -, hpc', -⟩
    · rcases h.stocked (hb ▸ hne) with hup | ⟨k, x, hk, hx⟩
      · left
        have hup' := hv.available hup
        unfold Available at hup' ⊢
        rwa [← hws] at hup'
      · have hik : i ≠ k := by
          rintro rfl
          rw [hth] at hk
          cases hk
          exact hsignal hx
        refine .inr ⟨k, x, ?_, hx⟩
        show (u.traversals.set i th')[k]? = some x
        rw [List.getElem?_set_ne hik]
        rcases hts with hts | hts
        · rw [hts, hk]
        · rw [hts, List.getElem?_append_left (List.getElem?_eq_some_iff.mp hk).1, hk]
    · exact .inr ⟨i, th', hget, hpc'⟩
  case roomy =>
    intro k x hk hasleep
    rcases hmove.get hk with rfl | ⟨hne, hold⟩ | hnew
    · obtain ⟨hb, file, hpc⟩ := hmove.sleeps hasleep
      left
      show (u.buffer.inp + 1) % size = u.buffer.out
      rw [hb]
      exact h.blocked i th file hth hpc
    · -- nobody is asleep while another thread adds a task
      have hadd : ∀ file, th.pc ≠ .add file := fun file hpc =>
        hne (hn.serial.chain.sleeper_unique hold hth hasleep (by rw [hpc]; rfl))
      rcases h.roomy k x hold hasleep with hfull | hempty
      · left
        show (u.buffer.inp + 1) % size = u.buffer.out
        rw [hbuffer hadd]
        exact hfull
      · right
        obtain ⟨j, pc, hj, hpc⟩ := hv.emptying hempty
        exact ⟨j, pc, hws ▸ hj, hpc⟩
    · rw [hnew] at hasleep
      contradiction

/-- The producer has signalled, so a worker is up or all were. -/
theorem Progress.signalNotEmpty (h : Progress size threads s) (hthreads : 1 ≤ threads)
    (hs : (s.goto i th .unlock).signalNotEmpty r = some t) : Progress size threads t := by
  have hwakes := State.signalNotEmpty_wakes hs
  obtain ⟨hb, hts, hlength⟩ := hwakes.frame
  have hb : t.buffer = s.buffer := hb
  have hts : t.traversals = s.traversals.set i { th with pc := .unlock } := hts
  have hlength : t.workers.length = s.workers.length := hlength
  constructor
  case started => exact hlength ▸ h.started
  case waiting =>
    intro j hj
    rw [hb]
    exact h.waiting j ((hwakes.get hj).resolve_left (by simp))
  case blocked =>
    intro k x file hk hx
    rw [hts] at hk
    rw [hb]
    rcases getElem?_set_some hk with ⟨-, rfl⟩ | ⟨-, hold⟩
    · contradiction
    · exact h.blocked k x file hold hx
  case stocked =>
    intro _
    left
    rcases State.signalNotEmpty_heard hs with hwoken | hnone
    · obtain ⟨j, hj⟩ := List.mem_iff_getElem?.mp hwoken
      exact .of_worker (hlength ▸ h.started) hj (by simp)
    · exact ⟨0, by omega, fun h0 => hnone (List.mem_of_getElem? h0)⟩
  case roomy =>
    intro k x hk hasleep
    rw [hts] at hk
    rw [hb]
    rcases getElem?_set_some hk with ⟨-, rfl⟩ | ⟨-, hold⟩
    · contradiction
    · exact (h.roomy k x hold hasleep).imp_right hwakes.emptying

/-! ### `main` and whole runs -/

theorem WorkerPc.emptying.wake (h : pc.emptying) : pc.wake.emptying := by
  cases pc <;> first | exact h | exact absurd rfl (h.resolve_right (by simp))

theorem Progress.main (h : Progress size threads s) (hn : Nested s)
    (hmove : MainMove threads s s.main mpc' u) : Progress size threads (u.mainAt mpc') := by
  generalize hm : s.main = mpc at hmove
  cases hmove with
  | createRoot =>
    have hnew {k : ℕ} {th : Traversal}
        (hk : [Traversal.start .mainSource .mainDest][k]? = some th) : th.pc = .opendir := by
      rw [List.mem_singleton.mp (List.mem_of_getElem? hk)]
      rfl
    refine ⟨h.started, h.waiting, ?_, fun hne => ?_, ?_⟩
    · intro k th file hk hx
      rw [hnew hk] at hx
      contradiction
    · refine (h.stocked hne).imp_right fun ⟨k, th, hk, _⟩ => ?_
      rw [hn.locked.fresh hm] at hk
      contradiction
    · intro k th hk hasleep
      rw [hnew hk] at hasleep
      contradiction
  | createWorker hlt =>
    have hlock {j : ℕ} {pc : WorkerPc} (hj : (s.workers ++ [WorkerPc.lock])[j]? = some pc) :
        s.workers[j]? = some pc ∨ pc = .lock := by
      rw [List.getElem?_append] at hj
      split at hj
      · exact .inl hj
      · exact .inr (List.mem_singleton.mp (List.mem_of_getElem? hj))
    refine ⟨?_, fun j hj => h.waiting j ((hlock hj).resolve_right (by simp)), h.blocked,
      fun hne => ?_, ?_⟩
    · show (s.workers ++ [WorkerPc.lock]).length ≤ threads
      rw [List.length_append]
      exact hlt
    · refine (h.stocked hne).imp_left fun ⟨j, hjt, hj⟩ => ⟨j, hjt, fun hsleep => ?_⟩
      exact hj ((hlock hsleep).resolve_right (by simp))
    · intro k th hk hasleep
      refine (h.roomy k th hk hasleep).imp_right fun ⟨j, pc, hj, hpc⟩ => ⟨j, pc, ?_, hpc⟩
      show (s.workers ++ [WorkerPc.lock])[j]? = some pc
      rw [List.getElem?_append_left (List.getElem?_eq_some_iff.mp hj).1, hj]
  | broadcast =>
    have hwake {j : ℕ} {pc : WorkerPc} (hj : (s.workers.map WorkerPc.wake)[j]? = some pc) :
        ∃ pc₀, s.workers[j]? = some pc₀ ∧ pc = pc₀.wake := by
      rw [List.getElem?_map] at hj
      obtain ⟨pc₀, hold, heq⟩ := Option.map_eq_some_iff.mp hj
      exact ⟨pc₀, hold, heq.symm⟩
    refine ⟨?_, fun j hj => ?_, h.blocked, fun hne => ?_, ?_⟩
    · show (s.workers.map WorkerPc.wake).length ≤ threads
      rw [List.length_map]
      exact h.started
    · obtain ⟨pc₀, hold, heq⟩ := hwake hj
      rw [WorkerPc.wake_eq_wait.mp heq.symm] at hold
      exact h.waiting j hold
    · refine (h.stocked hne).imp_left fun ⟨j, hjt, hj⟩ => ⟨j, hjt, fun hsleep => ?_⟩
      obtain ⟨pc₀, -, heq⟩ := hwake hsleep
      exact pc₀.wake_ne_asleep heq.symm
    · intro k th hk hasleep
      refine (h.roomy k th hk hasleep).imp_right fun ⟨j, pc, hj, hpc⟩ => ⟨j, pc.wake, ?_, ?_⟩
      · show (s.workers.map WorkerPc.wake)[j]? = some pc.wake
        rw [List.getElem?_map, hj, Option.map_some]
      · exact hpc.wake
  | _ => exact ⟨h.started, h.waiting, h.blocked, h.stocked, h.roomy⟩

theorem Progress.wakesTraversal (h : Progress size threads s) (hu : s.WakesTraversal u) :
    Progress size threads u := by
  obtain ⟨hb, hws⟩ := hu.frame
  have hold {k : ℕ} {th : Traversal} (hk : u.traversals[k]? = some th)
      (hpc : ∀ file, th.pc ≠ .woken file) : s.traversals[k]? = some th :=
    (hu.get hk).resolve_left fun ⟨file, hf⟩ => hpc file hf
  constructor
  case started => exact hws ▸ h.started
  case waiting => exact fun j hj => hb ▸ h.waiting j (hws ▸ hj)
  case blocked =>
    intro k th file hk hx
    rw [hb]
    exact h.blocked k th file (hold hk (by simp [hx])) hx
  case stocked =>
    intro hne
    refine (h.stocked (hb ▸ hne)).imp (fun hup => ?_) fun ⟨k, th, hk, hx⟩ => ?_
    · unfold Available at hup ⊢
      rwa [hws]
    · cases hu with
      | nobody => exact ⟨k, th, hk, hx⟩
      | @one j sleeper file hj hpc =>
        have hne : j ≠ k := by
          rintro rfl
          rw [hj] at hk
          cases hk
          rw [hpc] at hx
          contradiction
        exact ⟨k, th, by rw [List.getElem?_set_ne hne, hk], hx⟩
  case roomy =>
    intro k th hk hasleep
    rw [hb, hws]
    refine h.roomy k th (hold hk fun file hf => ?_) hasleep
    rw [hf] at hasleep
    contradiction

theorem Progress.wakesWorker (h : Progress size threads s) (hu : s.WakesWorker u) :
    Progress size threads u := by
  obtain ⟨hb, hts, hlength⟩ := hu.frame
  constructor
  case started => exact hlength ▸ h.started
  case waiting => exact fun j hj => hb ▸ h.waiting j ((hu.get hj).resolve_left (by simp))
  case blocked => exact fun k th file hk hx => hb ▸ h.blocked k th file (hts ▸ hk) hx
  case stocked =>
    intro hne
    refine (h.stocked (hb ▸ hne)).imp hu.available fun hs => ?_
    rwa [hts]
  case roomy =>
    intro k th hk hasleep
    rw [hb]
    exact (h.roomy k th (hts ▸ hk) hasleep).imp_right hu.emptying

end Steps

theorem progress_inductive {size threads : ℕ} (hthreads : 1 ≤ threads) :
    (copier size threads).Inductive (fun _ _ => True)
      fun s => Nested s ∧ Progress size threads s := by
  refine (nested_inductive size threads).and (fun s hs => ?_) fun s a t hn _ h _ hnext => ?_
  · constructor <;> simp [hs.workers, hs.traversals, hs.inp, hs.out]
  · cases copier_acts hnext with
    | main hmove => exact h.main hn hmove
    | @traverse i th r _ hth hnext =>
      by_cases hsignal : th.pc = .signal
      · rw [hsignal] at hnext
        exact h.signalNotEmpty hthreads hnext
      · obtain ⟨th', u, -, -, hmove, rfl⟩ := State.traverse_move hth hnext rfl
        exact h.traverse hn hth hsignal hmove
    | @work i pc r _ hpc hnext =>
      by_cases hsignal : pc = .signal
      · rw [hsignal] at hpc hnext
        exact h.signalNotFull hn hpc hnext
      · obtain ⟨pc', u, hmove, rfl⟩ := State.work_move hnext
        exact h.work hn hpc hsignal hmove
    | spuriousTraversal hu => exact h.wakesTraversal hu
    | spuriousWorker hu => exact h.wakesWorker hu

/-- A sleeper that nobody has woken finds the buffer as it was when it went to
sleep, whenever `buffer_mutex` is free; and the producer and the workers are never
all asleep. -/
theorem copier_progress {size threads : ℕ} (hsize : 2 ≤ size) (hthreads : 1 ≤ threads) {s : State}
    (hr : (copier size threads).Reachable s) :
    (s.bufferMutex = none → s.buffer.inp ≠ s.buffer.out →
      ∃ j < threads, s.workers[j]? ≠ some .asleep) ∧
    (s.bufferMutex = none → (s.buffer.inp + 1) % size ≠ s.buffer.out →
      ∀ th ∈ s.traversals, th.pc.isAsleep = false) ∧
    ((∃ th ∈ s.traversals, th.pc.isAsleep = true) →
      ∃ j < threads, s.workers[j]? ≠ some .asleep) := by
  obtain ⟨hn, h⟩ := (progress_inductive hthreads).holds hr
  have hbooks := ((copier_inductive (by omega) threads).holds hr).books
  refine ⟨fun hfree hne => ?_, fun hfree hroom th hth => ?_, fun ⟨th, hth, hasleep⟩ => ?_⟩
  · refine (h.stocked hne).resolve_right fun ⟨k, th, hk, hx⟩ => ?_
    have hown := hn.locked.traversals.eq_of_holds hk (by rw [hx]; rfl)
    rw [hfree] at hown
    contradiction
  · obtain ⟨k, hk⟩ := List.mem_iff_getElem?.mp hth
    by_contra hasleep
    rcases h.roomy k th hk (by simpa using hasleep) with hfull | ⟨j, pc, hj, hpc⟩
    · exact hroom hfull
    · have hown := hn.locked.workers.eq_of_holds hj hpc.holds
      rw [hfree] at hown
      contradiction
  · obtain ⟨k, hk⟩ := List.mem_iff_getElem?.mp hth
    rcases h.roomy k th hk hasleep with hfull | ⟨j, pc, hj, hpc⟩
    · -- a full buffer is not empty
      obtain ⟨pending, hholds, -⟩ := hbooks.tallied
      have hlength := hholds.full_iff.mp hfull
      have hne : s.buffer.inp ≠ s.buffer.out := by
        intro hempty
        rw [hholds.empty_iff.mp hempty, List.length_nil] at hlength
        omega
      refine (h.stocked hne).resolve_right fun ⟨k', x, hk', hx⟩ => ?_
      have hkk := hn.serial.chain.sleeper_unique hk hk' hasleep (by rw [hx]; rfl)
      subst hkk
      rw [hk] at hk'
      cases hk'
      rw [hx] at hasleep
      contradiction
    · exact Available.of_worker h.started hj hpc.ne_asleep

/-- The first file fills the buffer of one slot, and the producer sleeps with the
second. -/
def twoFiles : List Action :=
  List.replicate 2 (.main .ok) ++
  [.ok, .entry (utf8 "a"), .mode .regular, .fd 3, .fd 4, .ok, .ok, .ok, .ok, .wake none, .ok, .ok,
    .ok, .ok, .entry (utf8 "b"), .mode .regular, .fd 5, .fd 6, .ok, .ok, .ok, .ok].map (.traverse 0)

def twoFilesState : State := ((copier 2 1).run .init twoFiles).get (by decide)

theorem twoFiles_progress : twoFilesState.traversals.map (·.pc.isAsleep) = [true] ∧
    ∃ j < 1, twoFilesState.workers[j]? ≠ some .asleep := by
  have hr : (copier 2 1).Reachable twoFilesState :=
    Machine.Reachable.run (.start State.init_start) twoFiles (Option.some_get _).symm
  have hasleep : twoFilesState.traversals.map (·.pc.isAsleep) = [true] := by decide
  refine ⟨hasleep, (copier_progress le_rfl le_rfl hr).2.2 ?_⟩
  have hmem : true ∈ twoFilesState.traversals.map (·.pc.isAsleep) := by simp [hasleep]
  exact List.mem_map.mp hmem

end AdvancedCProjects.Copier
