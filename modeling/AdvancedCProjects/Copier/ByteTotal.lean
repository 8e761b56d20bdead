import AdvancedCProjects.Base.Tally
import AdvancedCProjects.Copier.Effects
import AdvancedCProjects.Copier.Tasks

/-!
# The total of the bytes (program.c:27-31, 413-436, 566-579)

A worker adds what `write` has reported to an `int`, under `output_mutex` and some
steps later. `main` prints the `int` when it has joined all workers.
-/

namespace AdvancedCProjects.Copier
open Base

/-- What the workers have written and not counted. -/
def State.uncounted (s : State) : ℕ := (s.workers.map WorkerPc.uncounted).sum

def Counted (s : State) : Prop := Tally 4 s.stats.bytesCopied s.uncounted s.written

/-- `main` has joined the workers before the one it waits for. -/
structure Joined (threads : ℕ) (s : State) : Prop where
  started : s.workers.length ≤ threads
  before : ∀ i, s.main = .joinWorker i → ∀ j < i, s.workers[j]? = some .exited
  all : s.main = .report → ∀ pc ∈ s.workers, pc = .exited

section Steps
variable {size threads i j : ℕ} {s t u : State} {th th' : Traversal} {pc pc' : WorkerPc}
  {tpc tpc' : TraversalPc} {mpc' : MainPc} {r : Reply}

/-! ### Counting -/

theorem State.WakesWorker.uncounted (h : s.WakesWorker u) : u.uncounted = s.uncounted := by
  cases h with
  | nobody => rfl
  | one hj =>
    have hsum := sum_map_set (f := WorkerPc.uncounted) hj .woken
    exact hsum

theorem TraversalMove.written (h : TraversalMove size s i th tpc tpc' u) :
    u.written = s.written := by
  cases h with
  | signal hu => cases hu <;> rfl
  | _ => rfl

theorem Statistics.traversal_bytesCopied (stats : Statistics) (o : TraversalOutput) :
    (stats.traversal o).bytesCopied = stats.bytesCopied := by
  cases o <;> rfl

theorem EntryStep.bytesCopied (h : EntryStep size s i th tpc r th' t) :
    t.stats.bytesCopied = s.stats.bytesCopied := by
  cases h with
  | onward _ _ _ _ hsame | entry _ hsame | finished hsame | openDest hsame => rw [hsame.stats]
  | insert hstats =>
    rw [hstats]
    rfl
  | add hstats => rw [hstats]
  | count hstats => rw [hstats, Statistics.traversal_bytesCopied]

theorem Counted.frame (h : Counted s) (hstats : t.stats.bytesCopied = s.stats.bytesCopied)
    (huncounted : t.uncounted = s.uncounted) (hwritten : t.written = s.written) : Counted t := by
  rw [Counted, hstats, huncounted, hwritten]
  exact h

theorem Counted.traverse (h : Counted s) (hth : s.traversals[i]? = some th)
    (hn : s.traverse size i th th.pc r = some t) : Counted t := by
  obtain ⟨th'', created, -, -, hstep⟩ := State.traverse_moved hth hn rfl
  obtain ⟨th', u, -, -, hmove, rfl⟩ := State.traverse_move hth hn rfl
  obtain ⟨-, ⟨v, hv, -, hws⟩, -⟩ := hmove.wakes
  have huncounted : (u.traversalAt i th').uncounted = s.uncounted := by
    have hwakes := hv.uncounted
    rw [State.uncounted, ← hws] at hwakes
    exact hwakes
  exact h.frame hstep.bytesCopied huncounted hmove.written

theorem Counted.work (h : Counted s) (hpc : s.workers[i]? = some pc)
    (hn : s.work size i pc r = some t) : Counted t := by
  obtain ⟨pc', hworkers, hstep⟩ := State.work_copyStep hn
  have hsum := sum_map_set (f := WorkerPc.uncounted) hpc pc'
  rw [← hworkers] at hsum
  have hsum : t.uncounted + pc.uncounted = s.uncounted + pc'.uncounted := hsum
  have h : Tally 4 s.stats.bytesCopied s.uncounted s.written := h
  rw [Counted]
  generalize t.stats = stats at hstep ⊢
  generalize t.written = written at hstep ⊢
  cases hstep with
  | onward _ hsame =>
    have heq : t.uncounted = s.uncounted := by omega
    rwa [heq]
  | take =>
    have heq : t.uncounted = s.uncounted := hsum
    rwa [heq]
  | write task bytesRead n =>
    have heq : t.uncounted = s.uncounted + n := hsum
    rw [heq]
    exact h.take n
  | count task n =>
    have heq : t.uncounted + n = s.uncounted := hsum
    rw [← heq] at h
    exact h.add

theorem WorkerPc.uncounted_wake (pc : WorkerPc) : pc.wake.uncounted = pc.uncounted := by
  cases pc <;> rfl

theorem Counted.main (h : Counted s) (hmove : MainMove threads s s.main mpc' u) :
    Counted (u.mainAt mpc') := by
  generalize s.main = mpc at hmove
  cases hmove with
  | createWorker =>
    refine h.frame rfl ?_ rfl
    simp [State.uncounted, State.mainAt, WorkerPc.uncounted]
  | broadcast =>
    refine h.frame rfl ?_ rfl
    have hwake : WorkerPc.uncounted ∘ WorkerPc.wake = WorkerPc.uncounted :=
      funext WorkerPc.uncounted_wake
    simp only [State.uncounted, State.mainAt, List.map_map, hwake]
  | _ => exact h

theorem Counted.step {a : Action} (h : Counted s)
    (hn : (copier size threads).next s a = some t) : Counted t := by
  cases copier_acts hn with
  | main hmove => exact h.main hmove
  | traverse hth hn => exact h.traverse hth hn
  | work hpc hn => exact h.work hpc hn
  | spuriousTraversal hu => cases hu <;> exact h
  | spuriousWorker hu =>
    have huncounted := hu.uncounted
    cases hu <;> exact h.frame rfl huncounted rfl

/-! ### Joining -/

theorem WorkerMove.live (h : WorkerMove size s i pc pc' u) : pc ≠ .exited := by
  rintro rfl
  cases h with
  | enter hpc => rcases hpc with hpc | hpc <;> contradiction
  | copying _ _ _ hh => contradiction

theorem Step.exited (hstep : Step size threads s t) (hj : s.workers[j]? = some .exited) :
    t.workers[j]? = some .exited := by
  have wakes {v : State} (hv : s.WakesWorker v) : v.workers[j]? = some .exited := by
    cases hv with
    | nobody => exact hj
    | @one k hk =>
      have hne : k ≠ j := by
        rintro rfl
        rw [hj] at hk
        contradiction
      rw [List.getElem?_set_ne hne, hj]
  cases hstep with
  | main hmove =>
    generalize s.main = mpc at hmove
    cases hmove with
    | createWorker =>
      exact (List.getElem?_append_left (List.getElem?_eq_some_iff.mp hj).1).trans hj
    | broadcast =>
      show (s.workers.map WorkerPc.wake)[j]? = _
      rw [List.getElem?_map, hj]
      rfl
    | _ => exact hj
  | traverse _ _ _ hmove =>
    obtain ⟨-, ⟨v, hv, -, hws⟩, -⟩ := hmove.wakes
    exact (congrArg (·[j]?) hws).trans (wakes hv)
  | @work i pc pc' u hpc hmove =>
    have hne : i ≠ j := by
      rintro rfl
      rw [hj] at hpc
      cases hpc
      exact hmove.live rfl
    show (u.workers.set i pc')[j]? = _
    rw [List.getElem?_set_ne hne, hmove.wakes.2.1, hj]
  | spuriousTraversal hu => cases hu <;> exact hj
  | spuriousWorker hu => exact wakes hu

theorem Joined.main (h : Joined threads s) (hmove : MainMove threads s s.main mpc' u) :
    Joined threads (u.mainAt mpc') := by
  generalize hm : s.main = mpc at hmove
  cases hmove with
  | createWorker hlt =>
    refine ⟨?_, fun _ hi => by contradiction, fun hr => by contradiction⟩
    simpa [State.mainAt] using Nat.succ_le_of_lt hlt
  | broadcast =>
    refine ⟨?_, fun i hi j hj => ?_, fun hr => by contradiction⟩
    · simpa [State.mainAt] using h.started
    · cases hi
      contradiction
  | joinWorker i hlt hexit =>
    refine ⟨h.started, fun k hk j hj => ?_, fun hr => by contradiction⟩
    cases hk
    rcases Nat.lt_succ_iff_lt_or_eq.mp hj with hold | rfl
    · exact h.before i hm j hold
    · exact hexit
  | joinedAll i hge =>
    refine ⟨h.started, fun k hk => by contradiction, fun _ pc hpc => ?_⟩
    have hpc : pc ∈ s.workers := hpc
    obtain ⟨j, hj⟩ := List.mem_iff_getElem?.mp hpc
    have hlt := (List.getElem?_eq_some_iff.mp hj).1
    have hstarted := h.started
    have hexit := h.before i hm j (by omega)
    rw [hj] at hexit
    exact Option.some.inj hexit
  | _ => exact ⟨h.started, fun _ hi => by contradiction, fun hr => by contradiction⟩

theorem Step.main_or (hstep : Step size threads s t) :
    (∃ mpc' u, MainMove threads s s.main mpc' u ∧ t = u.mainAt mpc') ∨
      t.main = s.main ∧ t.workers.length = s.workers.length := by
  have wakes {v : State} (hv : s.WakesWorker v) : v.workers.length = s.workers.length := by
    cases hv with
    | nobody => rfl
    | one => exact List.length_set
  cases hstep with
  | main hmove => exact .inl ⟨_, _, hmove, rfl⟩
  | traverse _ _ _ hmove =>
    obtain ⟨hmain, ⟨v, hv, -, hws⟩, -⟩ := hmove.wakes
    exact .inr ⟨hmain, (congrArg List.length hws).trans (wakes hv)⟩
  | work _ hmove =>
    obtain ⟨hmain, hworkers, -⟩ := hmove.wakes
    refine .inr ⟨hmain, ?_⟩
    simp only [State.workerAt, List.length_set, hworkers]
  | spuriousTraversal hu => cases hu <;> exact .inr ⟨rfl, rfl⟩
  | spuriousWorker hu =>
    have hlength := wakes hu
    cases hu <;> exact .inr ⟨rfl, hlength⟩

theorem Joined.step (h : Joined threads s) (hstep : Step size threads s t) :
    Joined threads t := by
  rcases hstep.main_or with ⟨mpc', u, hmove, rfl⟩ | ⟨hmain, hlength⟩
  · exact h.main hmove
  refine ⟨hlength ▸ h.started, fun i hi j hj => ?_, fun hr pc hpc => ?_⟩
  · exact hstep.exited (h.before i (hmain ▸ hi) j hj)
  · obtain ⟨j, hj⟩ := List.mem_iff_getElem?.mp hpc
    have hlt : j < s.workers.length := hlength ▸ (List.getElem?_eq_some_iff.mp hj).1
    have hold := h.all (hmain ▸ hr) _ (List.getElem_mem hlt)
    have hexit := hstep.exited ((List.getElem?_eq_getElem hlt).trans (congrArg some hold))
    rw [hj] at hexit
    exact Option.some.inj hexit

end Steps

/-! ### Whole runs -/

theorem counted_inductive (size threads : ℕ) : (copier size threads).Inductive (fun _ _ => True)
    fun s => Counted s ∧ Joined threads s where
  base s hs := by
    constructor
    · rw [Counted, State.uncounted, hs.stats, hs.workers, hs.written]
      exact .zero 4
    · refine ⟨by simp [hs.workers], fun i hi => ?_, fun hr => ?_⟩
      · rw [hs.main] at hi
        contradiction
      · rw [hs.main] at hr
        contradiction
  keep s a t h _ hn := ⟨h.1.step hn, h.2.step (copier_step hn)⟩

theorem counted_at_report {size threads : ℕ} {s : State} (hr : (copier size threads).Reachable s)
    (hm : s.main = .report) : Tally 4 s.stats.bytesCopied 0 s.written := by
  obtain ⟨hcounted, hjoined⟩ := (counted_inductive size threads).holds hr
  have hnone : s.uncounted = 0 := by
    have hexited : s.workers = List.replicate s.workers.length .exited :=
      List.eq_replicate_iff.mpr ⟨rfl, hjoined.all hm⟩
    rw [State.uncounted, hexited, List.map_replicate]
    simp [WorkerPc.uncounted]
  rw [Counted, hnone] at hcounted
  exact hcounted

/-- The total that `main` prints is what the calls of `write` have reported just
when that is less than 2 GiB. -/
theorem total_printed_iff {size threads : ℕ} {s : State} (hr : (copier size threads).Reachable s)
    (hm : s.main = .report) : s.stats.bytesCopied = s.written ↔ s.written < 2 ^ 31 :=
  (counted_at_report hr hm).exact_iff

def oneByteState : State :=
  ((copier 2 1).run .init (oneFile ++ List.replicate 2 (.main .ok))).get (by decide)

theorem oneByte_printed : oneByteState.main = .report ∧ oneByteState.written = 1 ∧
    oneByteState.stats.bytesCopied = oneByteState.written := by
  have hr : (copier 2 1).Reachable oneByteState :=
    Machine.Reachable.run (.start State.init_start) _ (Option.some_get _).symm
  have hm : oneByteState.main = .report := by decide
  have hwritten : oneByteState.written = 1 := by decide
  exact ⟨hm, hwritten, (total_printed_iff hr hm).mpr (by rw [hwritten]; decide)⟩

/-! ### A file of 2 GiB -/

def readingState : State := ((copier 2 1).run .init (oneFile.take 28)).get (by decide)

theorem readingState_reachable : (copier 2 1).Reachable readingState :=
  Machine.Reachable.run (.start State.init_start) _ (Option.some_get _).symm

/-- What a file that is larger changes while it is copied. -/
def copied (written : ℕ) (stats : Statistics) : State :=
  { readingState with written := written, stats := stats }

def fullRound : List Action := [.count 1024, .count 1024, .ok, .ok, .ok].map (.work 0)

theorem copied_fullRound (written : ℕ) (stats : Statistics) :
    (copier 2 1).run (copied written stats) fullRound =
      some (copied (written + 1024) (stats.worker (.bytes 1024))) := rfl

theorem copied_rounds (rounds : ℕ) :
    ∃ stats, (copier 2 1).Reachable (copied (1024 * rounds) stats) := by
  induction rounds with
  | zero => exact ⟨readingState.stats, readingState_reachable⟩
  | succ rounds ih =>
    obtain ⟨stats, hr⟩ := ih
    exact ⟨_, hr.run fullRound (copied_fullRound (1024 * rounds) stats)⟩

def endOfFile : List Action :=
  [.count 0, .ok, .ok, .wake none, .ok, .ok, .ok, .ok, .ok, .wake none].map (.work 0) ++
    List.replicate 2 (.main .ok)

theorem copied_endOfFile (written : ℕ) (stats : Statistics) :
    ((copier 2 1).run (copied written stats) endOfFile).map (fun s => (s.main, s.written)) =
      some (.report, written) := rfl

theorem total_overflows : ¬ ∀ s, (copier 2 1).Reachable s → s.main = .report →
    s.stats.bytesCopied = s.written := by
  intro h
  obtain ⟨stats, hr⟩ := copied_rounds (2 ^ 21)
  obtain ⟨s, hs, heq⟩ :=
    Option.map_eq_some_iff.mp (copied_endOfFile (1024 * 2 ^ 21) stats)
  obtain ⟨hm, hwritten⟩ := Prod.mk.inj heq
  have hreport := hr.run endOfFile hs
  have hprinted := h s hreport hm
  have hrange := (wrapInt_range s.stats.bytesCopied).2
  rw [(counted_at_report hreport hm).range, hprinted, hwritten] at hrange
  norm_num at hrange

end AdvancedCProjects.Copier
