import AdvancedCProjects.Bibo.Server

/-!
# What one statement of the parent does

The moves of the server loop, each with what it changes and what it has tested.
-/

namespace AdvancedCProjects.Bibo
open Base

inductive ParentMove (s : Server) : ServerPc → Server → Prop where
  | dequeue : ¬ s.queue.isEmpty → s.emptySlotCount > 0 → ParentMove s .top
      { s with queue := s.queue.dequeue.2, pc := .dequeued s.queue.dequeue.1 }
  | poll : ParentMove s .top { s with pc := .read }
  | nothing : ParentMove s .read { s with pc := .top }
  | take (pid mode : ℤ) (i : ℕ) : s.connectedClients[i]? = some 0 → ParentMove s (.add pid mode i)
      { s with connectedClients := s.connectedClients.set i pid, pc := .connect pid }
  | pass (pid mode : ℤ) (i : ℕ) {entry : ℤ} : s.connectedClients[i]? = some entry → entry ≠ 0 →
    ParentMove s (.add pid mode i) { s with pc := .add pid mode (i + 1) }
  | full (pid mode : ℤ) (i : ℕ) {pc : ServerPc} : s.connectedClients[i]? = none →
    (mode = 0 → pc = .refuse pid) → (mode = 1 → pc = .wait pid) →
    pc = .refuse pid ∨ pc = .wait pid ∨ pc = .connect pid →
    ParentMove s (.add pid mode i) { s with pc := pc }
  | dequeued (pid : ℤ) : ParentMove s (.dequeued pid)
      { s with log := s.log ++ [.told pid 2], pc := .fork pid }
  | refuse (pid : ℤ) : ParentMove s (.refuse pid)
      { s with log := s.log ++ [.told pid 0], pc := .top }
  | wait (pid : ℤ) : ParentMove s (.wait pid)
      { s with log := s.log ++ [.told pid 1], pc := .enqueue pid }
  | enqueue (pid : ℤ) : ParentMove s (.enqueue pid)
      { s with queue := s.queue.enqueue pid, pc := .top }
  | connect (pid : ℤ) : ParentMove s (.connect pid)
      { s with log := s.log ++ [.told pid 2], pc := .fork pid }
  | fork (pid : ℤ) : ParentMove s (.fork pid)
      { s with handlers := s.handlers ++ [⟨pid, .start⟩], pc := .top }

theorem serve_move {s t : Server} (h : s.serve = some t) : ParentMove s s.pc t := by
  unfold Server.serve at h
  cases hpc : s.pc with
  | top =>
    simp only [hpc] at h
    split at h
    · next hcond => exact Option.some.inj h ▸ .dequeue hcond.1 hcond.2
    · exact Option.some.inj h ▸ .poll
  | add pid mode i =>
    simp only [hpc] at h
    split at h
    · next entry hget =>
      split at h
      · next hzero => exact Option.some.inj h ▸ .take pid mode i (hzero ▸ hget)
      · next hne => exact Option.some.inj h ▸ .pass pid mode i hget hne
    · next hnone =>
      by_cases hzero : mode = 0
      · rw [if_pos hzero] at h
        exact Option.some.inj h ▸ .full pid mode i hnone (fun _ => rfl) (by omega) (.inl rfl)
      · by_cases hone : mode = 1
        · rw [if_neg hzero, if_pos hone] at h
          exact Option.some.inj h ▸
            .full pid mode i hnone (by omega) (fun _ => rfl) (.inr (.inl rfl))
        · rw [if_neg hzero, if_neg hone] at h
          exact Option.some.inj h ▸ .full pid mode i hnone (fun he => (hzero he).elim)
            (fun he => (hone he).elim) (.inr (.inr rfl))
  | dequeued pid => exact Option.some.inj (hpc ▸ h) ▸ .dequeued pid
  | read => exact Option.some.inj (hpc ▸ h) ▸ .nothing
  | refuse pid => exact Option.some.inj (hpc ▸ h) ▸ .refuse pid
  | wait pid => exact Option.some.inj (hpc ▸ h) ▸ .wait pid
  | enqueue pid => exact Option.some.inj (hpc ▸ h) ▸ .enqueue pid
  | connect pid => exact Option.some.inj (hpc ▸ h) ▸ .connect pid
  | fork pid => exact Option.some.inj (hpc ▸ h) ▸ .fork pid
  | stopped => simp [hpc] at h

end AdvancedCProjects.Bibo
