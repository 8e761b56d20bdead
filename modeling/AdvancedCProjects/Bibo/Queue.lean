import AdvancedCProjects.Base.Fifo
import AdvancedCProjects.Bibo.Server
import Mathlib.Data.List.Induction

/-!
# The waiting queue (biboServer.c:35-79)

`front` and `rear` only advance until the queue is empty, so `enqueue` gives up
at the end of the array whether or not places have become free at its start.
-/

namespace AdvancedCProjects.Bibo
open Base

/-- The elements from `front` to `rear`. -/
def Queue.contents (q : Queue) : List ℤ :=
  if q.isEmpty then []
  else (List.range (q.rear - q.front + 1).toNat).map fun i => q.items (q.front.toNat + i)

theorem Queue.Holds.contents_eq {q : Queue} {xs : List ℤ} (h : q.Holds xs) : q.contents = xs := by
  by_cases hxs : xs = []
  · subst hxs
    rw [Queue.contents, if_pos (h.empty rfl)]
  · obtain ⟨hfront, hrear, -⟩ := h.range hxs
    have hlen : (q.rear - q.front + 1).toNat = xs.length := by omega
    rw [Queue.contents, if_neg fun he => hxs (h.isEmpty_iff.mp he), hlen]
    refine List.ext_getElem (by simp) fun i _ hi => ?_
    simp [h.slot i hi]

def Queue.call (q : Queue) : QueueOp ℤ → Queue
  | .put data => q.enqueue data
  | .take => q.dequeue.2

def Queue.calls (q : Queue) (ops : List (QueueOp ℤ)) : Queue := ops.foldl Queue.call q

/-- The queue as it is meant to be: a call that cannot be served changes nothing. -/
def fifoCall (xs : List ℤ) (op : QueueOp ℤ) : List ℤ := ((fifo maxSize).next xs op).getD xs

def fifoCalls (ops : List (QueueOp ℤ)) : List ℤ := ops.foldl fifoCall []

/-- After each of the calls the queue holds what the queue of `maxSize` places
holds, `isEmpty` says so, and `dequeue` returns the oldest element or -1. -/
def BehavesAsFifo (items : ℕ → ℤ) (ops : List (QueueOp ℤ)) : Prop :=
  ∀ done, done <+: ops →
    ((Queue.initializeQueue items).calls done).contents = fifoCalls done ∧
    (((Queue.initializeQueue items).calls done).isEmpty ↔ fifoCalls done = []) ∧
    ((Queue.initializeQueue items).calls done).dequeue.1 = (fifoCalls done).head?.getD (-1)

/-- Where `rear` is at the end of the array, `front` is at its start. -/
def Packed (q : Queue) : Prop := q.isFull → q.front = 0

section Calls
variable {q : Queue} {xs : List ℤ} {ops done : List (QueueOp ℤ)} {op : QueueOp ℤ} {data : ℤ}
  {items : ℕ → ℤ}

theorem Queue.calls_concat (q : Queue) (ops : List (QueueOp ℤ)) (op : QueueOp ℤ) :
    q.calls (ops ++ [op]) = (q.calls ops).call op := List.foldl_append

theorem fifoCalls_concat (ops : List (QueueOp ℤ)) (op : QueueOp ℤ) :
    fifoCalls (ops ++ [op]) = fifoCall (fifoCalls ops) op := List.foldl_append

theorem Queue.Holds.length_le (h : q.Holds xs) : xs.length ≤ maxSize := by
  by_cases hxs : xs = []
  · rw [hxs]
    exact Nat.zero_le _
  · obtain ⟨hfront, hrear, hlt⟩ := h.range hxs
    omega

theorem Queue.Holds.length_of_full (h : q.Holds xs) (hfull : q.isFull) :
    (xs.length : ℤ) = maxSize - q.front := by
  have hrear : q.rear = maxSize - 1 := hfull
  by_cases hxs : xs = []
  · have hempty := (h.empty hxs).2
    rw [hrear] at hempty
    contradiction
  · obtain ⟨-, hr, -⟩ := h.range hxs
    omega

theorem Queue.Holds.room (h : q.Holds xs) (hroom : ¬ q.isFull) : xs.length < maxSize := by
  by_cases hxs : xs = []
  · rw [hxs]
    decide
  · obtain ⟨hfront, hrear, hlt⟩ := h.range hxs
    unfold Queue.isFull at hroom
    omega

theorem Queue.Holds.dequeue_nil (h : q.Holds []) : q.dequeue = (-1, q) := by
  rw [Queue.dequeue, if_pos (h.empty rfl)]

theorem Queue.Holds.call_or (h : q.Holds xs) (op : QueueOp ℤ) : ∃ ys, (q.call op).Holds ys := by
  cases op with
  | put data =>
    by_cases hfull : q.isFull
    · refine ⟨xs, ?_⟩
      show (q.enqueue data).Holds xs
      rwa [Queue.enqueue, if_pos hfull]
    · exact ⟨xs ++ [data], h.enqueue hfull⟩
  | take =>
    cases xs with
    | nil =>
      refine ⟨[], ?_⟩
      show q.dequeue.2.Holds []
      rwa [h.dequeue_nil]
    | cons x rest => exact ⟨rest, h.dequeue.2⟩

theorem calls_hold (items : ℕ → ℤ) (ops : List (QueueOp ℤ)) :
    ∃ ys, ((Queue.initializeQueue items).calls ops).Holds ys := by
  induction ops using List.reverseRecOn with
  | nil => exact ⟨[], Queue.holds_initializeQueue items⟩
  | append_singleton ops op ih =>
    obtain ⟨ys, hys⟩ := ih
    rw [Queue.calls_concat]
    exact hys.call_or op

/-- A call does what it is meant to do, if it is not an `enqueue` that finds the
end of the array taken and places free at its start. -/
theorem Queue.Holds.call (h : q.Holds xs) (hok : ∀ data, op = .put data → Packed q) :
    (q.call op).Holds (fifoCall xs op) := by
  cases op with
  | put data =>
    show (q.enqueue data).Holds (fifoCall xs (.put data))
    by_cases hfull : q.isFull
    · have hlength := h.length_of_full hfull
      rw [hok data rfl hfull] at hlength
      rw [Queue.enqueue, if_pos hfull]
      simp only [fifoCall, fifo]
      rw [if_neg (by omega), Option.getD_none]
      exact h
    · simp only [fifoCall, fifo]
      rw [if_pos (h.room hfull), Option.getD_some]
      exact h.enqueue hfull
  | take =>
    show q.dequeue.2.Holds (fifoCall xs .take)
    cases xs with
    | nil => rwa [h.dequeue_nil]
    | cons x rest => exact h.dequeue.2

theorem Queue.Holds.head (h : q.Holds xs) : q.dequeue.1 = xs.head?.getD (-1) := by
  cases xs with
  | nil => rw [h.dequeue_nil]; rfl
  | cons x rest => exact h.dequeue.1

theorem calls_packed
    (h : ∀ done data, done ++ [.put data] <+: ops →
      Packed ((Queue.initializeQueue items).calls done)) :
    ((Queue.initializeQueue items).calls ops).Holds (fifoCalls ops) := by
  induction ops using List.reverseRecOn with
  | nil => exact Queue.holds_initializeQueue items
  | append_singleton ops op ih =>
    have hold := ih fun done data hp => h done data (hp.trans (List.prefix_append ops [op]))
    rw [Queue.calls_concat, fifoCalls_concat]
    apply hold.call
    rintro data rfl
    exact h ops data (List.prefix_refl _)

theorem BehavesAsFifo.packed (h : BehavesAsFifo items ops) (hp : done ++ [.put data] <+: ops) :
    Packed ((Queue.initializeQueue items).calls done) := by
  intro hfull
  obtain ⟨ys, hys⟩ := calls_hold items done
  have hbefore := (h done ((List.prefix_append done _).trans hp)).1
  have hafter := (h (done ++ [.put data]) hp).1
  rw [hys.contents_eq] at hbefore
  have hsame : ((Queue.initializeQueue items).calls (done ++ [.put data])).contents = ys := by
    rw [Queue.calls_concat, Queue.call, Queue.enqueue, if_pos hfull, hys.contents_eq]
  have hlength := hys.length_of_full hfull
  have hle := hys.length_le
  rw [hsame, fifoCalls_concat, ← hbefore] at hafter
  have hnext : fifoCall ys (.put data) = ys := hafter.symm
  simp only [fifoCall, fifo] at hnext
  split at hnext
  · simp at hnext
  · next hge => omega

theorem calls_replicate (items : ℕ → ℤ) (data : ℤ) {n : ℕ} (hn : n < maxSize) :
    ((Queue.initializeQueue items).calls (List.replicate (n + 1) (.put data))).front = 0 ∧
    ((Queue.initializeQueue items).calls (List.replicate (n + 1) (.put data))).rear = n := by
  induction n with
  | zero => exact ⟨rfl, rfl⟩
  | succ n ih =>
    obtain ⟨hfront, hrear⟩ := ih (by omega)
    rw [List.replicate_succ', Queue.calls_concat]
    have hroom : ¬ ((Queue.initializeQueue items).calls
        (List.replicate (n + 1) (.put data))).isFull := by
      unfold Queue.isFull
      omega
    have hsome : ¬ ((Queue.initializeQueue items).calls
        (List.replicate (n + 1) (.put data))).isEmpty := by
      unfold Queue.isEmpty
      omega
    rw [Queue.call, Queue.enqueue, if_neg hroom, if_neg hsome]
    exact ⟨hfront, by push_cast; omega⟩

/-- When the array has been filled and one element taken, a place is free that
`enqueue` does not find. -/
theorem not_packed {n : ℕ} (hn : n + 1 = maxSize) (hpos : 0 < n) : ¬ Packed
    ((Queue.initializeQueue items).calls (List.replicate (n + 1) (.put data) ++ [.take])) := by
  obtain ⟨hfront, hrear⟩ := calls_replicate items data (n := n) (by omega)
  have hsome : ¬ ((Queue.initializeQueue items).calls
      (List.replicate (n + 1) (.put data))).isEmpty := by
    unfold Queue.isEmpty
    omega
  rw [Queue.calls_concat, Queue.call, Queue.dequeue, if_neg hsome, if_neg (by omega)]
  intro hp
  have hzero := hp (hrear.trans (by omega))
  simp only [hfront] at hzero
  contradiction

end Calls

/-- The queue behaves as one of `maxSize` places exactly as long as no `enqueue`
is called when `rear` is at the end of the array and elements have been taken from
its start. -/
theorem fifo_iff (items : ℕ → ℤ) (ops : List (QueueOp ℤ)) :
    BehavesAsFifo items ops ↔ ∀ done data, done ++ [.put data] <+: ops →
      Packed ((Queue.initializeQueue items).calls done) := by
  constructor
  · intro h done data hp
    exact h.packed hp
  · intro h done hdone
    have hholds : ((Queue.initializeQueue items).calls done).Holds (fifoCalls done) :=
      calls_packed fun done' data hp => h done' data (hp.trans hdone)
    exact ⟨hholds.contents_eq, hholds.isEmpty_iff, hholds.head⟩

/-- 1024 elements go in and one comes out; the next one is refused. -/
theorem free_place_refused : ¬ ∀ items ops, BehavesAsFifo items ops := by
  intro h
  have hfifo := h (fun _ => 0) (List.replicate (1023 + 1) (.put 0) ++ [.take] ++ [.put 1])
  exact not_packed rfl (by decide) (hfifo.packed (List.prefix_refl _))

end AdvancedCProjects.Bibo
