import AdvancedCProjects.Base.Machine
import Mathlib.Data.Int.Notation
import Mathlib.Data.List.Basic
import Mathlib.Logic.Function.Basic

/-!
# The server loop and its children (biboServer.c)

The parent reads requests, scans the table of connected clients, queues and
forks; the children change `empty_slot_count` and the table in shared memory.
Each access to shared memory by a running child is a step of its own. Handlers
are kept in the list after they end. A child never comes back from
`handle_client`, so the code behind that call in `main` has no step.
-/

namespace AdvancedCProjects.Bibo
open Base

def maxSize : ℕ := 1024

structure Queue where
  items : ℕ → ℤ
  front : ℤ
  rear : ℤ

namespace Queue

def initializeQueue (items : ℕ → ℤ) : Queue := ⟨items, -1, -1⟩

def isFull (q : Queue) : Prop := q.rear = maxSize - 1

def isEmpty (q : Queue) : Prop := q.front = -1 ∧ q.rear = -1

instance (q : Queue) : Decidable q.isFull := inferInstanceAs (Decidable (_ = _))

instance (q : Queue) : Decidable q.isEmpty := inferInstanceAs (Decidable (_ ∧ _))

def enqueue (q : Queue) (data : ℤ) : Queue :=
  if q.isFull then q
  else
    let q := if q.isEmpty then { q with front := 0, rear := 0 } else { q with rear := q.rear + 1 }
    { q with items := Function.update q.items q.rear.toNat data }

def dequeue (q : Queue) : ℤ × Queue :=
  if q.isEmpty then (-1, q)
  else (q.items q.front.toNat,
    if q.front = q.rear then { q with front := -1, rear := -1 } else { q with front := q.front + 1 })

structure Holds (q : Queue) (xs : List ℤ) : Prop where
  empty : xs = [] → q.isEmpty
  range : xs ≠ [] → 0 ≤ q.front ∧ q.rear = q.front + xs.length - 1 ∧ q.rear < maxSize
  slot : ∀ i, ∀ h : i < xs.length, q.items (q.front.toNat + i) = xs[i]

variable {q : Queue} {xs : List ℤ} {x : ℤ}

theorem holds_initializeQueue (items : ℕ → ℤ) : (initializeQueue items).Holds [] where
  empty _ := ⟨rfl, rfl⟩
  range h := (h rfl).elim
  slot _ h := absurd h (by simp)

theorem Holds.isEmpty_iff (h : q.Holds xs) : q.isEmpty ↔ xs = [] := by
  refine ⟨fun he => ?_, h.empty⟩
  by_contra hne
  have hr := (h.range hne).1
  have hf := he.1
  omega

theorem Holds.enqueue (h : q.Holds xs) (hroom : ¬ q.isFull) : (q.enqueue x).Holds (xs ++ [x]) := by
  simp only [Queue.enqueue, if_neg hroom]
  by_cases hxs : xs = []
  · subst hxs
    simp only [if_pos (h.empty rfl)]
    constructor
    · intro hne
      simp at hne
    · intro _
      simp [maxSize]
    · intro i hi
      obtain rfl : i = 0 := by simpa using hi
      simp
  · obtain ⟨hfront, hrear, hlt⟩ := h.range hxs
    have hpos := List.length_pos_iff.mpr hxs
    simp only [if_neg (fun he => hxs (h.isEmpty_iff.mp he))]
    have hlast : (q.rear + 1).toNat = q.front.toNat + xs.length := by omega
    constructor
    · intro hne
      simp at hne
    · intro _
      simp only [isFull] at hroom
      simp only [List.length_append, List.length_singleton]
      push_cast
      omega
    · intro i hi
      simp only [hlast]
      by_cases heq : i = xs.length
      · subst heq
        simp
      · have hlt : i < xs.length := by
          simp only [List.length_append, List.length_singleton] at hi
          omega
        rw [Function.update_of_ne (by omega), h.slot i hlt, List.getElem_append_left hlt]

theorem Holds.dequeue (h : q.Holds (x :: xs)) :
    q.dequeue.1 = x ∧ q.dequeue.2.Holds xs := by
  obtain ⟨hfront, hrear, hlt⟩ := h.range (by simp)
  have hne : ¬ q.isEmpty := fun he => by simpa using h.isEmpty_iff.mp he
  have hhead := h.slot 0 (by simp)
  simp only [List.length_cons] at hrear
  refine ⟨by simpa [Queue.dequeue, hne] using hhead, ?_⟩
  simp only [Queue.dequeue, if_neg hne]
  split
  · next heq =>
    obtain rfl : xs = [] := List.length_eq_zero_iff.mp (by omega)
    exact ⟨fun _ => ⟨rfl, rfl⟩, fun hn => (hn rfl).elim, fun _ hi => absurd hi (by simp)⟩
  · next hmore =>
    have hpos : xs ≠ [] := fun he => hmore (by subst he; simp at hrear; omega)
    refine ⟨fun he => (hpos he).elim,
      fun _ => ⟨by dsimp only; omega, by dsimp only; omega, hlt⟩, ?_⟩
    intro i hi
    have hs := h.slot (i + 1) (by simpa using hi)
    have hidx : (q.front + 1).toNat + i = q.front.toNat + (i + 1) := by omega
    simpa [hidx] using hs

end Queue

/-- Where a child is: before it reads the counter, before it stores it, in its
session, between clearing its table entry and `exit`, gone. -/
inductive HandlerPc where
  | start
  | loaded (emptySlotCount : ℤ)
  | session
  | cleared
  | ended
  deriving DecidableEq

structure Handler where
  clientPid : ℤ
  pc : HandlerPc
  deriving DecidableEq

inductive ServerPc where
  | top
  | dequeued (clientPid : ℤ)
  | read
  | add (clientPid connectionMode : ℤ) (i : ℕ)
  | refuse (clientPid : ℤ)
  | wait (clientPid : ℤ)
  | enqueue (clientPid : ℤ)
  | connect (clientPid : ℤ)
  | fork (clientPid : ℤ)
  | stopped
  deriving DecidableEq

inductive Event where
  | read (clientPid : ℤ)
  | told (clientPid flag : ℤ)
  deriving DecidableEq

structure Server where
  connectedClients : List ℤ
  emptySlotCount : ℤ
  queue : Queue
  pc : ServerPc
  handlers : List Handler
  log : List Event

/-- `leave` is `killServer`, `exit(1)` or any other end without `quit`. -/
inductive HandlerStep where
  | load
  | store
  | quit
  | exit
  | leave

/-- `stop` is the end of the parent: SIGUSR2, a failed `fork` or `open`. -/
inductive Action where
  | serve
  | request (clientPid connectionMode : ℤ)
  | stop
  | handler (i : ℕ) (step : HandlerStep)

namespace Server

/-- The loop in `quit`: the first entry of the client. -/
def clearClient (clientPid : ℤ) : List ℤ → List ℤ
  | [] => []
  | pid :: rest => if pid = clientPid then 0 :: rest else pid :: clearClient clientPid rest

/-- The parent's next statement; `add` is one round of the loop in `add_client`. -/
def serve (s : Server) : Option Server :=
  match s.pc with
  | .top =>
    if ¬ s.queue.isEmpty ∧ s.emptySlotCount > 0 then
      some { s with queue := s.queue.dequeue.2, pc := .dequeued s.queue.dequeue.1 }
    else some { s with pc := .read }
  | .dequeued pid => some { s with log := s.log ++ [.told pid 2], pc := .fork pid }
  | .read => some { s with pc := .top }
  | .add pid mode i =>
    match s.connectedClients[i]? with
    | some entry =>
      if entry = 0 then
        some { s with connectedClients := s.connectedClients.set i pid, pc := .connect pid }
      else some { s with pc := .add pid mode (i + 1) }
    | none =>
      if mode = 0 then some { s with pc := .refuse pid }
      else if mode = 1 then some { s with pc := .wait pid }
      else some { s with pc := .connect pid }
  | .refuse pid => some { s with log := s.log ++ [.told pid 0], pc := .top }
  | .wait pid => some { s with log := s.log ++ [.told pid 1], pc := .enqueue pid }
  | .enqueue pid => some { s with queue := s.queue.enqueue pid, pc := .top }
  | .connect pid => some { s with log := s.log ++ [.told pid 2], pc := .fork pid }
  | .fork pid => some { s with handlers := s.handlers ++ [⟨pid, .start⟩], pc := .top }
  | .stopped => none

def handle (s : Server) (i : ℕ) (step : HandlerStep) : Option Server :=
  match s.handlers[i]? with
  | none => none
  | some h =>
    let move (s : Server) (pc : HandlerPc) : Option Server :=
      some { s with handlers := s.handlers.set i { h with pc := pc } }
    match h.pc, step with
    | .start, .load => move s (.loaded s.emptySlotCount)
    | .loaded v, .store => move { s with emptySlotCount := v - 1 } .session
    | .session, .quit =>
      move { s with connectedClients := clearClient h.clientPid s.connectedClients } .cleared
    | .cleared, .exit => move s .ended
    | .session, .leave => move s .ended
    | _, _ => none

def next (s : Server) : Action → Option Server
  | .serve => s.serve
  | .request pid mode =>
    if s.pc = .read ∧ 0 < pid ∧ (mode = 0 ∨ mode = 1) then
      some { s with log := s.log ++ [.read pid], pc := .add pid mode 0 }
    else none
  | .stop => if s.pc = .stopped then none else some { s with pc := .stopped }
  | .handler i step => s.handle i step

/-- `create_shared_struct` and `initializeQueue`. -/
def start (maxClients : ℕ) (s : Server) : Prop :=
  s.connectedClients = List.replicate maxClients 0 ∧ s.emptySlotCount = maxClients ∧
  (∃ items, s.queue = Queue.initializeQueue items) ∧ s.pc = .top ∧ s.handlers = [] ∧ s.log = []

end Server

def bibo (maxClients : ℕ) : Machine Server Action where
  start := Server.start maxClients
  next := Server.next

def Server.init (maxClients : ℕ) : Server where
  connectedClients := List.replicate maxClients 0
  emptySlotCount := maxClients
  queue := Queue.initializeQueue fun _ => 0
  pc := .top
  handlers := []
  log := []

theorem Server.init_start (maxClients : ℕ) : (bibo maxClients).start (Server.init maxClients) :=
  ⟨rfl, rfl, ⟨_, rfl⟩, rfl, rfl, rfl⟩

/-- The parent's steps for a request, up to the fork or back to the top. -/
def Action.visit (clientPid connectionMode : ℤ) (steps : ℕ) : List Action :=
  .serve :: .request clientPid connectionMode :: List.replicate steps .serve

end AdvancedCProjects.Bibo
