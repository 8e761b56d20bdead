import AdvancedCProjects.Base.Machine
import Mathlib.Data.List.Basic

/-!
# A bounded queue, first in first out

`fifo capacity` is the queue as such: a list, to which is added at the end
while there is room, and from which is taken at the front while there is
something. With the log of a run, what was taken is what was added first.
-/

namespace Base

inductive QueueOp (α : Type) where
  | put (x : α)
  | take

variable {α : Type}

def fifo (capacity : ℕ) : Machine (List α) (QueueOp α) where
  start xs := xs = []
  next
    | xs, .put x => if xs.length < capacity then some (xs ++ [x]) else none
    | [], .take => none
    | _ :: xs, .take => some xs

structure QueueLog (α : Type) where
  added : List α
  removed : List α

/-- `first` is what `take` takes. -/
def QueueLog.record (first : Option α) : QueueOp α → QueueLog α → QueueLog α
  | .put x, log => { log with added := log.added ++ [x] }
  | .take, log => { log with removed := log.removed ++ first.toList }

def fifoLog (capacity : ℕ) : Machine (List α × QueueLog α) (QueueOp α) :=
  (fifo capacity).recorded (fun _ => ⟨[], []⟩) fun xs op => QueueLog.record xs.head? op

theorem fifoLog_inductive (capacity : ℕ) :
    (fifoLog (α := α) capacity).Inductive (fun _ _ => True) fun s =>
      s.2.removed ++ s.1 = s.2.added ∧ s.1.length ≤ capacity where
  base s hs := by
    obtain ⟨xs, log⟩ := s
    obtain ⟨hxs, hlog⟩ := hs
    have hxs : xs = [] := hxs
    have hlog : log = ⟨[], []⟩ := hlog
    rw [hxs, hlog]
    exact ⟨rfl, Nat.zero_le capacity⟩
  keep s op t h _ hn := by
    obtain ⟨xs, log⟩ := s
    obtain ⟨hlog, hlength⟩ := h
    obtain ⟨ys, hys, rfl⟩ := Option.map_eq_some_iff.mp hn
    cases op with
    | put x =>
      simp only [fifo] at hys
      split at hys
      · next hroom =>
        obtain rfl := Option.some.inj hys
        refine ⟨?_, ?_⟩
        · show log.removed ++ (xs ++ [x]) = log.added ++ [x]
          rw [← List.append_assoc, hlog]
        · rw [List.length_append]
          exact hroom
      · contradiction
    | take =>
      cases xs with
      | nil => contradiction
      | cons x xs =>
        obtain rfl := Option.some.inj hys
        refine ⟨?_, ?_⟩
        · show (log.removed ++ [x]) ++ xs = log.added
          rw [List.append_assoc, List.singleton_append, hlog]
        · exact Nat.le_of_succ_le hlength

end Base
