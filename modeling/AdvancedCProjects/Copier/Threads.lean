import AdvancedCProjects.Base.Mutex
import AdvancedCProjects.Copier.Moves

/-!
# Locks and joins of the copier

Who is in a critical section of `buffer_mutex` holds it. A thread of the
traversal that has created another one waits for it, so the threads that have
not exited are a chain from the root on, and `main` sets `done` when there is
none.
-/

namespace AdvancedCProjects.Copier
open Base

section Mutex
variable {size threads i : ℕ} {s t u : State} {th th' : Traversal} {pc pc' : WorkerPc}
  {tpc tpc' : TraversalPc}

theorem worker_injective : Function.Injective Thread.worker := fun _ _ h => Thread.worker.inj h

theorem traversal_injective : Function.Injective Thread.traversal :=
  fun _ _ h => Thread.traversal.inj h

theorem worker_ne_traversal (i j : ℕ) : Thread.worker i ≠ Thread.traversal j := nofun

/-- `buffer_mutex` is held by the thread that is in its critical section. -/
structure Locked (s : State) : Prop where
  traversals : Owner Thread.traversal (fun th => th.pc.holds) s.bufferMutex s.traversals
  workers : Owner Thread.worker WorkerPc.holds s.bufferMutex s.workers
  fresh : s.main = .createRoot → s.traversals = []

theorem WorkerMove.lock (h : WorkerMove size s i pc pc' u) :
    LockMove (.worker i) s.bufferMutex u.bufferMutex pc.holds pc'.holds := by
  cases h with
  | enter hpc hm =>
    rw [hm]
    exact .acquire _
  | sleep | unlock | exitUnlock => exact .release _
  | copying m stats written hh hh' =>
    rw [hh, hh']
    exact .keep _ _
  | signal hu | exitSignal hu => cases hu <;> exact .keep _ _
  | _ => exact .keep _ _

theorem TraversalMove.lock (h : TraversalMove size s i th tpc tpc' u) :
    LockMove (.traversal i) s.bufferMutex u.bufferMutex tpc.holds tpc'.holds := by
  cases h with
  | step m stats hl =>
    rw [hl.outside, hl.outside']
    exact .keep _ _
  | enter file hpc hm =>
    rw [hm]
    exact .acquire _
  | sleep | unlock => exact .release _
  | signal hu => cases hu <;> exact .keep _ _
  | _ => exact .keep _ _

theorem State.WakesTraversal.length (hu : s.WakesTraversal u) :
    u.traversals.length = s.traversals.length := by
  cases hu with
  | nobody => rfl
  | one => exact List.length_set

theorem Locked.wakesTraversal (h : Locked s) (hu : s.WakesTraversal u) : Locked u := by
  cases hu with
  | nobody => exact h
  | one hj hpc =>
    refine ⟨h.traversals.move hj ?_, h.workers, ?_⟩
    · rw [hpc]
      rfl
    · intro hm
      have hnil := h.fresh hm
      rw [hnil] at hj
      contradiction

theorem Locked.wakesWorker (h : Locked s) (hu : s.WakesWorker u) : Locked u := by
  cases hu with
  | nobody => exact h
  | one hj => exact ⟨h.traversals, h.workers.move hj rfl, h.fresh⟩

theorem WorkerMove.wakes (h : WorkerMove size s i pc pc' u) :
    u.main = s.main ∧ u.workers = s.workers ∧
      ∃ v, s.WakesTraversal v ∧ v.bufferMutex = s.bufferMutex ∧ u.traversals = v.traversals := by
  cases h with
  | signal hu | exitSignal hu =>
    cases hu with
    | nobody => exact ⟨rfl, rfl, s, .nobody, rfl, rfl⟩
    | one hj hpc => exact ⟨rfl, rfl, _, .one hj hpc, rfl, rfl⟩
  | _ => exact ⟨rfl, rfl, s, .nobody, rfl, rfl⟩

theorem TraversalMove.wakes (h : TraversalMove size s i th tpc tpc' u) :
    u.main = s.main ∧
      (∃ v, s.WakesWorker v ∧ v.bufferMutex = s.bufferMutex ∧ u.workers = v.workers) ∧
      (u.traversals = s.traversals ∨
        u.traversals = s.traversals ++ [.start (.srcPath i) (.destSubdir i)]) := by
  cases h with
  | create => exact ⟨rfl, ⟨s, .nobody, rfl, rfl⟩, .inr rfl⟩
  | signal hu =>
    cases hu with
    | nobody => exact ⟨rfl, ⟨s, .nobody, rfl, rfl⟩, .inl rfl⟩
    | one hj => exact ⟨rfl, ⟨_, .one hj, rfl, rfl⟩, .inl rfl⟩
  | _ => exact ⟨rfl, ⟨s, .nobody, rfl, rfl⟩, .inl rfl⟩

theorem Locked.work (h : Locked s) (hpc : s.workers[i]? = some pc)
    (hmove : WorkerMove size s i pc pc' u) : Locked (u.workerAt i pc') := by
  obtain ⟨hmain, hworkers, v, hv, hvm, hts⟩ := hmove.wakes
  have hlv := h.wakesTraversal hv
  have hown : pc.holds = true → s.bufferMutex = some (.worker i) := h.workers.eq_of_holds hpc
  constructor
  · have hts' := hlv.traversals
    rw [hvm, ← hts] at hts'
    exact hts'.other (worker_ne_traversal i) hown hmove.lock
  · have hws := h.workers.step worker_injective hpc hmove.lock
    rwa [← hworkers] at hws
  · intro hm
    have hnil := h.fresh (hmain.symm.trans hm)
    have hlen : u.traversals.length = s.traversals.length := by rw [hts, hv.length]
    rwa [hnil, List.length_nil, List.length_eq_zero_iff] at hlen

theorem Locked.traverse (h : Locked s) (hth : s.traversals[i]? = some th)
    (hmove : TraversalMove size s i th th.pc th'.pc u) : Locked (u.traversalAt i th') := by
  obtain ⟨hmain, ⟨v, hv, hvm, hws⟩, hts⟩ := hmove.wakes
  have hlv := h.wakesWorker hv
  have hown : th.pc.holds = true → s.bufferMutex = some (.traversal i) :=
    h.traversals.eq_of_holds hth
  constructor
  · have hts' := h.traversals.step (y := th') traversal_injective hth hmove.lock
    rcases hts with hts | hts
    · rwa [← hts] at hts'
    · have hi := (List.getElem?_eq_some_iff.mp hth).1
      have happ := hts'.append (y := .start (.srcPath i) (.destSubdir i)) rfl
      rwa [← List.set_append_left _ _ hi, ← hts] at happ
  · have hws' := hlv.workers
    rw [hvm, ← hws] at hws'
    exact hws'.other (fun j => (worker_ne_traversal j i).symm) hown hmove.lock
  · intro hm
    have hnil := h.fresh (hmain.symm.trans hm)
    rw [hnil] at hth
    contradiction

theorem Locked.main (h : Locked s) {mpc' : MainPc} (hmove : MainMove threads s s.main mpc' u) :
    Locked (u.mainAt mpc') := by
  generalize hm : s.main = mpc at hmove
  cases hmove with
  | createRoot =>
    have hnil := h.fresh hm
    have happ := h.traversals.append (y := .start .mainSource .mainDest) rfl
    rw [hnil] at happ
    exact ⟨happ, h.workers, nofun⟩
  | createWorker => exact ⟨h.traversals, h.workers.append rfl, nofun⟩
  | broadcast => exact ⟨h.traversals, h.workers.map (by rintro ⟨⟩ <;> rfl), nofun⟩
  | _ => exact ⟨h.traversals, h.workers, nofun⟩

theorem Locked.step (h : Locked s) (hstep : Step size threads s t) : Locked t := by
  cases hstep with
  | main hmove => exact h.main hmove
  | traverse hth _ _ hmove => exact h.traverse hth hmove
  | work hpc hmove => exact h.work hpc hmove
  | spuriousTraversal hu => exact h.wakesTraversal hu
  | spuriousWorker hu => exact h.wakesWorker hu

end Mutex

/-! ### The chain of joins -/

/-- A thread other than the root was given its parent's buffers; as long as it
runs, the parent is in `pthread_join` on it. -/
def Chain (ts : List Traversal) : Prop :=
  ∀ k th, ts[k]? = some th → k = 0 ∨ ∃ j < k, th.sourceDir = .srcPath j ∧
    (th.pc ≠ .exited → ∃ parent, ts[j]? = some parent ∧ parent.pc = .join k)

namespace Chain
variable {ts : List Traversal} {i k : ℕ} {th th' : Traversal}

theorem all_exited (h : Chain ts) {root : Traversal} (hroot : ts[0]? = some root)
    (hexit : root.pc = .exited) (hk : ts[k]? = some th) : th.pc = .exited := by
  induction k using Nat.strongRecOn generalizing th with
  | ind k ih =>
    rcases h k th hk with rfl | ⟨j, hjk, -, hparent⟩
    · rw [hroot] at hk
      cases hk
      exact hexit
    · by_contra hne
      obtain ⟨parent, hj, hjoin⟩ := hparent hne
      have hp := ih j hjk hj
      rw [hjoin] at hp
      contradiction

theorem set (h : Chain ts) (hi : ts[i]? = some th) (hrun : th.pc ≠ .exited)
    (hsrc : th'.sourceDir = th.sourceDir)
    (hjoin : ∀ k child, th.pc = .join k → ts[k]? = some child → child.pc = .exited) :
    Chain (ts.set i th') := by
  have hlt := (List.getElem?_eq_some_iff.mp hi).1
  have other {j : ℕ} {p : Traversal} (hji : i ≠ j) (hj : ts[j]? = some p) :
      (ts.set i th')[j]? = some p := by rw [List.getElem?_set_ne hji, hj]
  intro k th'' hk
  by_cases hik : i = k
  · subst hik
    rw [List.getElem?_set_self hlt] at hk
    cases hk
    refine (h i th hi).imp id fun ⟨j, hji, hs, hparent⟩ => ⟨j, hji, hsrc.trans hs, fun _ => ?_⟩
    obtain ⟨parent, hj, hpj⟩ := hparent hrun
    exact ⟨parent, other (by omega) hj, hpj⟩
  · rw [List.getElem?_set_ne hik] at hk
    refine (h k th'' hk).imp id fun ⟨j, hjk, hs, hparent⟩ => ⟨j, hjk, hs, fun hne => ?_⟩
    obtain ⟨parent, hj, hpj⟩ := hparent hne
    by_cases hij : i = j
    · subst hij
      rw [hi] at hj
      cases hj
      exact absurd (hjoin k th'' hpj hk) hne
    · exact ⟨parent, other hij hj, hpj⟩

theorem create (h : Chain ts) (hi : ts[i]? = some th) (hpc : th.pc = .create)
    (hsrc : th'.sourceDir = th.sourceDir) (hpc' : th'.pc = .join ts.length) (destDir : Cell) :
    Chain (ts.set i th' ++ [.start (.srcPath i) destDir]) := by
  have hlt := (List.getElem?_eq_some_iff.mp hi).1
  have hset : Chain (ts.set i th') := by
    refine h.set hi (hpc ▸ nofun) hsrc ?_
    intro k child hk
    rw [hpc] at hk
    contradiction
  have left {j : ℕ} {p : Traversal} (hj : (ts.set i th')[j]? = some p) :
      (ts.set i th' ++ [.start (.srcPath i) destDir])[j]? = some p := by
    rw [List.getElem?_append_left (List.getElem?_eq_some_iff.mp hj).1, hj]
  intro k th'' hk
  by_cases hlast : k < ts.length
  · rw [List.getElem?_append_left (by rwa [List.length_set])] at hk
    refine (hset k th'' hk).imp id fun ⟨j, hjk, hs, hparent⟩ => ⟨j, hjk, hs, fun hne => ?_⟩
    obtain ⟨parent, hj, hpj⟩ := hparent hne
    exact ⟨parent, left hj, hpj⟩
  · obtain ⟨hkl, heq⟩ := List.getElem?_eq_some_iff.mp hk
    have hkeq : k = ts.length := by
      simp only [List.length_append, List.length_set, List.length_singleton] at hkl
      omega
    subst hkeq
    have hstart : th'' = .start (.srcPath i) destDir := by
      rw [← heq, List.getElem_append_right (by simp)]
      simp
    subst hstart
    exact .inr ⟨i, hlt, rfl, fun _ => ⟨th', left (List.getElem?_set_self hlt), hpc'⟩⟩

theorem root (sourceDir destDir : Cell) : Chain [.start sourceDir destDir] := by
  intro k th hk
  obtain ⟨hlt, -⟩ := List.getElem?_eq_some_iff.mp hk
  exact .inl (by simpa using hlt)

end Chain

def RootExited (ts : List Traversal) : Prop :=
  ∃ root, ts[0]? = some root ∧ root.pc = .exited

theorem RootExited.set {ts : List Traversal} {i : ℕ} {th : Traversal} (h : RootExited ts)
    (hi : ts[i]? = some th) (hrun : th.pc ≠ .exited) (th' : Traversal) :
    RootExited (ts.set i th') := by
  obtain ⟨root, hroot, hexit⟩ := h
  have hne : i ≠ 0 := by
    rintro rfl
    rw [hroot] at hi
    cases hi
    exact hrun hexit
  exact ⟨root, by rw [List.getElem?_set_ne hne, hroot], hexit⟩

theorem RootExited.append {ts : List Traversal} (h : RootExited ts) (th : Traversal) :
    RootExited (ts ++ [th]) := by
  obtain ⟨root, hroot, hexit⟩ := h
  have hlt := (List.getElem?_eq_some_iff.mp hroot).1
  exact ⟨root, by rw [List.getElem?_append_left hlt, hroot], hexit⟩

section Serial
variable {size threads i : ℕ} {s t u : State} {th th' : Traversal} {pc pc' : WorkerPc}
  {tpc tpc' : TraversalPc} {mpc' : MainPc}

/-- `done` is set when the traversal is over. -/
structure Serial (s : State) : Prop where
  chain : Chain s.traversals
  joined : s.main = .lockOutput ∨ s.main = .setDone ∨ s.done = true → RootExited s.traversals

theorem Serial.all_exited (h : Serial s) (hd : s.done = true) {k : ℕ}
    (hk : s.traversals[k]? = some th) : th.pc = .exited := by
  obtain ⟨root, hroot, hexit⟩ := h.joined (.inr (.inr hd))
  exact h.chain.all_exited hroot hexit hk

theorem TraversalMove.running (h : TraversalMove size s i th tpc tpc' u) : tpc ≠ .exited := by
  cases h with
  | step m stats hl => exact hl.running
  | enter file hpc =>
    rcases hpc with rfl | rfl <;> nofun
  | _ => nofun

theorem TraversalMove.joins (h : TraversalMove size s i th tpc tpc' u) {k : ℕ} {child : Traversal}
    (hk : tpc = .join k) (hchild : s.traversals[k]? = some child) : child.pc = .exited := by
  cases h with
  | step m stats hl =>
    have halone := hl.alone
    rw [hk] at halone
    contradiction
  | joined hj hexit =>
    cases hk
    rw [hj] at hchild
    cases hchild
    exact hexit
  | enter file hpc =>
    rcases hpc with rfl | rfl <;> contradiction
  | _ => contradiction

theorem Serial.wakesTraversal (h : Serial s) (hu : s.WakesTraversal u) : Serial u := by
  cases hu with
  | nobody => exact h
  | @one j th file hj hpc =>
    have hrun : th.pc ≠ .exited := by
      rw [hpc]
      nofun
    refine ⟨h.chain.set hj hrun rfl ?_, fun hm => (h.joined hm).set hj hrun _⟩
    intro k child hk
    rw [hpc] at hk
    contradiction

theorem Serial.wakesWorker (h : Serial s) (hu : s.WakesWorker u) : Serial u := by
  cases hu with
  | nobody => exact h
  | one => exact ⟨h.chain, h.joined⟩

theorem Serial.work (h : Serial s) (hmove : WorkerMove size s i pc pc' u) :
    Serial (u.workerAt i pc') := by
  cases hmove with
  | signal hu | exitSignal hu =>
    have hwake := h.wakesTraversal hu
    exact ⟨hwake.chain, hwake.joined⟩
  | _ => exact ⟨h.chain, h.joined⟩

theorem Serial.traverse (h : Serial s) (hth : s.traversals[i]? = some th)
    (hsrc : th'.sourceDir = th.sourceDir) (hmove : TraversalMove size s i th th.pc th'.pc u) :
    Serial (u.traversalAt i th') := by
  have hlt := (List.getElem?_eq_some_iff.mp hth).1
  have hset : Chain (s.traversals.set i th') :=
    h.chain.set hth hmove.running hsrc fun k child hk hchild => hmove.joins hk hchild
  have hroot (hm : s.main = .lockOutput ∨ s.main = .setDone ∨ s.done = true) :
      RootExited (s.traversals.set i th') := (h.joined hm).set hth hmove.running th'
  generalize hpc : th.pc = pc at hmove
  generalize hpc' : th'.pc = pc' at hmove
  cases hmove with
  | create =>
    have happ := h.chain.create hth hpc hsrc hpc' (.destSubdir i)
    constructor
    · rwa [← List.set_append_left _ _ hlt] at happ
    · intro hm
      have hr := (hroot hm).append (.start (.srcPath i) (.destSubdir i))
      rwa [← List.set_append_left _ _ hlt] at hr
  | signal hu => cases hu <;> exact ⟨hset, hroot⟩
  | _ => exact ⟨hset, hroot⟩

theorem Serial.main (h : Serial s) (hl : Locked s) (hmove : MainMove threads s s.main mpc' u) :
    Serial (u.mainAt mpc') := by
  generalize hm : s.main = mpc at hmove
  have hdone (hd : s.done = true) : RootExited s.traversals := h.joined (.inr (.inr hd))
  cases hmove with
  | createRoot =>
    refine ⟨Chain.root _ _, ?_⟩
    rintro (hp | hp | hd)
    · contradiction
    · contradiction
    · obtain ⟨root, hroot, -⟩ := hdone hd
      rw [hl.fresh hm] at hroot
      contradiction
  | joinRoot hroot hexit => exact ⟨h.chain, fun _ => ⟨_, hroot, hexit⟩⟩
  | lockOutput => exact ⟨h.chain, fun _ => h.joined (.inl hm)⟩
  | setDone => exact ⟨h.chain, fun _ => h.joined (.inr (.inl hm))⟩
  | _ =>
    refine ⟨h.chain, ?_⟩
    rintro (hp | hp | hd)
    · contradiction
    · contradiction
    · exact hdone hd

theorem Serial.step (h : Serial s) (hl : Locked s) (hstep : Step size threads s t) :
    Serial t := by
  cases hstep with
  | main hmove => exact h.main hl hmove
  | traverse hth hsrc _ hmove => exact h.traverse hth hsrc hmove
  | work _ hmove => exact h.work hmove
  | spuriousTraversal hu => exact h.wakesTraversal hu
  | spuriousWorker hu => exact h.wakesWorker hu

theorem Locked.start (hs : s.Start) : Locked s := by
  refine ⟨?_, ?_, fun _ => hs.traversals⟩
  · rw [hs.traversals, hs.bufferMutex]
    exact .nil (by simp)
  · rw [hs.workers, hs.bufferMutex]
    exact .nil (by simp)

theorem Serial.start (hs : s.Start) : Serial s := by
  constructor
  · intro k th hk
    rw [hs.traversals] at hk
    contradiction
  · rw [hs.main, hs.done]
    rintro (h | h | h) <;> contradiction

end Serial
end AdvancedCProjects.Copier
