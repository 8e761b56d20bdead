import AdvancedCProjects.Base.Lists
import AdvancedCProjects.Bibo.Moves
import Mathlib.Data.List.Nodup
import Mathlib.Data.List.Perm.Subperm

/-!
# Served clients and slots

`empty_slot_count` counts the children that have started, the table the clients
that were connected directly. Both stay within `max_clients` as long as the
parent reads the counter only when every child has stored it.
-/

namespace AdvancedCProjects.Bibo
open Base

namespace HandlerPc
variable (v : ℤ)

def starting : HandlerPc → Bool
  | start | loaded _ => true
  | session | cleared | ended => false

def isLoaded : HandlerPc → Bool
  | loaded _ => true
  | start | session | cleared | ended => false

@[simp] theorem starting_start : start.starting = true := rfl
@[simp] theorem starting_loaded : (loaded v).starting = true := rfl
@[simp] theorem starting_session : session.starting = false := rfl
@[simp] theorem isLoaded_start : start.isLoaded = false := rfl
@[simp] theorem isLoaded_loaded : (loaded v).isLoaded = true := rfl
@[simp] theorem isLoaded_session : session.isLoaded = false := rfl

theorem isLoaded_of_starting {pc : HandlerPc} (h : pc.starting = false) : pc.isLoaded = false := by
  cases pc <;> simp_all [starting, isLoaded]

end HandlerPc

namespace Handler

def live (h : Handler) : Bool := h.pc ≠ .ended

def listed (h : Handler) : Bool := h.pc ≠ .ended ∧ h.pc ≠ .cleared

def isCleared (h : Handler) : Bool := h.pc = .cleared

end Handler

def Server.served (s : Server) : ℕ := s.handlers.countP Handler.live

/-- The parent looks at the counter for a waiting client only when every child
has stored it, no child reads the counter while another is about to store it,
and no table entry is reused while the child that cleared it is still there. -/
def Settled (s : Server) : Action → Prop
  | .serve => match s.pc with
    | .top => ¬ s.queue.isEmpty → ∀ h ∈ s.handlers, h.pc.starting = false
    | .add _ _ i => s.connectedClients[i]? = some 0 → ∀ h ∈ s.handlers, h.isCleared = false
    | _ => True
  | .handler _ .load => ∀ h ∈ s.handlers, h.pc.isLoaded = false
  | _ => True

instance (s : Server) (a : Action) : Decidable (Settled s a) := by
  unfold Settled
  repeat' split
  all_goals infer_instance

/-! ### The lists behind the counters -/

def nonzero (table : List ℤ) : List ℤ := table.filter (· ≠ 0)

theorem nonzero_set {table : List ℤ} {i : ℕ} {pid : ℤ} (h : table[i]? = some 0) (hp : pid ≠ 0) :
    (nonzero (table.set i pid)).Perm (pid :: nonzero table) := by
  obtain ⟨l₁, l₂, rfl, hset⟩ := set_split h
  rw [hset]
  simp [nonzero, List.filter_append, hp, List.perm_middle]

theorem nonzero_length_lt {table : List ℤ} {i : ℕ} (h : table[i]? = some 0) :
    (nonzero table).length < table.length := by
  have hmem : (0 : ℤ) ∈ table := List.mem_of_getElem? h
  exact List.length_filter_lt_length_iff_exists.mpr ⟨0, hmem, by simp⟩

theorem nonzero_clearClient (table : List ℤ) {pid : ℤ} (hp : pid ≠ 0) :
    nonzero (Server.clearClient pid table) = (nonzero table).erase pid := by
  induction table with
  | nil => rfl
  | cons x rest ih =>
    by_cases hx : x = pid
    · subst hx
      simp [Server.clearClient, nonzero, hp]
    · have h0 : ¬ (0 : ℤ) = pid := fun h => hp h.symm
      by_cases hz : x = 0
      · simpa [Server.clearClient, nonzero, h0, hz] using ih
      · have hbeq : (x == pid) = false := beq_false_of_ne hx
        simpa [Server.clearClient, nonzero, hx, hz, List.erase_cons, hbeq] using ih

@[simp] theorem clearClient_length (table : List ℤ) (pid : ℤ) :
    (Server.clearClient pid table).length = table.length := by
  induction table with
  | nil => rfl
  | cons x rest ih =>
    simp only [Server.clearClient]
    split
    · rfl
    · simp [ih]

def owners (handlers : List Handler) : List ℤ :=
  (handlers.filter Handler.listed).map Handler.clientPid

theorem owners_append (l₁ l₂ : List Handler) : owners (l₁ ++ l₂) = owners l₁ ++ owners l₂ := by
  simp [owners]

theorem owners_cons (h : Handler) (l : List Handler) :
    owners (h :: l) = (if h.listed then [h.clientPid] else []) ++ owners l := by
  simp only [owners, List.filter_cons]
  split
  · rfl
  · rfl

/-- What a step of a child does to the shared state. -/
theorem handle_cases {s t : Server} {i : ℕ} {step : HandlerStep} (hn : s.handle i step = some t) :
    ∃ l₁ l₂ pid pc, s.handlers = l₁ ++ ⟨pid, pc⟩ :: l₂ ∧
    ((pc = .start ∧ step = .load ∧
      t = { s with handlers := l₁ ++ ⟨pid, .loaded s.emptySlotCount⟩ :: l₂ }) ∨
    (∃ v, pc = .loaded v ∧ t = { s with
      emptySlotCount := v - 1, handlers := l₁ ++ ⟨pid, .session⟩ :: l₂ }) ∨
    (pc = .session ∧ step = .quit ∧ t = { s with
      connectedClients := Server.clearClient pid s.connectedClients
      handlers := l₁ ++ ⟨pid, .cleared⟩ :: l₂ }) ∨
    (pc = .cleared ∧ t = { s with handlers := l₁ ++ ⟨pid, .ended⟩ :: l₂ }) ∨
    (pc = .session ∧ step = .leave ∧ t = { s with handlers := l₁ ++ ⟨pid, .ended⟩ :: l₂ })) := by
  simp only [Server.handle] at hn
  cases hget : s.handlers[i]? with
  | none => simp [hget] at hn
  | some h =>
    obtain ⟨l₁, l₂, hsplit, hset⟩ := set_split hget
    simp only [hget, hset] at hn
    obtain ⟨pid, pc⟩ := h
    refine ⟨l₁, l₂, pid, pc, hsplit, ?_⟩
    split at hn
    · next hpc => exact .inl ⟨hpc, rfl, (Option.some.inj hn).symm⟩
    · next v hpc => exact .inr (.inl ⟨v, hpc, (Option.some.inj hn).symm⟩)
    · next hpc => exact .inr (.inr (.inl ⟨hpc, rfl, (Option.some.inj hn).symm⟩))
    · next hpc => exact .inr (.inr (.inr (.inl ⟨hpc, (Option.some.inj hn).symm⟩)))
    · next hpc => exact .inr (.inr (.inr (.inr ⟨hpc, rfl, (Option.some.inj hn).symm⟩)))
    · contradiction

/-! ### What the steps keep -/

/-- The counter is the number of slots less the children that have stored it. -/
structure Counted (maxClients : ℕ) (emptySlotCount : ℤ) (handlers : List Handler) : Prop where
  counter : emptySlotCount = maxClients - (handlers.countP fun h => !h.pc.starting : ℕ)
  loaded : ∀ h ∈ handlers, ∀ v, h.pc = .loaded v → v = emptySlotCount
  one : handlers.countP (fun h => h.pc.isLoaded) ≤ 1

def FreeFrom (table : List ℤ) (n : ℕ) : Prop := ∀ x ∈ table.drop n, x = 0

/-- Every listed child has an entry of its own; `pend` is a client that is not
forked for yet. -/
structure Owned (maxClients : ℕ) (table : List ℤ) (handlers : List Handler) (pend : List ℤ) :
    Prop where
  size : table.length = maxClients
  listed : (owners handlers ++ pend).Subperm (nonzero table)
  room : (nonzero table).length + handlers.countP Handler.isCleared ≤ maxClients

def pending : ServerPc → List ℤ
  | .connect pid | .fork pid => [pid]
  | _ => []

/-- What holds at each point of the parent; a waiting client is never dequeued. -/
def PcOk (maxClients : ℕ) (handlers : List Handler) : ServerPc → Prop
  | .add pid mode i => 0 < pid ∧ (mode = 0 ∨ mode = 1) ∧ i ≤ handlers.length
  | .connect pid | .fork pid => 0 < pid
  | .refuse _ | .wait _ | .enqueue _ => maxClients ≤ handlers.length
  | .dequeued _ => False
  | .top | .read | .stopped => True

structure Bounded (maxClients : ℕ) (s : Server) : Prop where
  counted : Counted maxClients s.emptySlotCount s.handlers
  owned : Owned maxClients s.connectedClients s.handlers (pending s.pc)
  free : s.pc ≠ .stopped →
    FreeFrom s.connectedClients (s.handlers.length + (pending s.pc).length)
  pids : ∀ h ∈ s.handlers, 0 < h.clientPid
  pcOk : PcOk maxClients s.handlers s.pc
  waiting : ∃ xs, s.queue.Holds xs ∧ (xs ≠ [] → maxClients ≤ s.handlers.length)

section Steps
variable {maxClients : ℕ} {s t : Server} {table : List ℤ} {handlers l₁ l₂ : List Handler}
  {pend : List ℤ} {count : ℤ} {pid : ℤ}

theorem Counted.fork (h : Counted maxClients count handlers) :
    Counted maxClients count (handlers ++ [⟨pid, .start⟩]) where
  counter := by simpa using h.counter
  loaded hd hmem v hv := by
    rcases List.mem_append.mp hmem with hmem | hmem
    · exact h.loaded hd hmem v hv
    · simp only [List.mem_singleton] at hmem
      subst hmem
      contradiction
  one := by simpa using h.one

theorem Counted.load (h : Counted maxClients count (l₁ ++ ⟨pid, .start⟩ :: l₂))
    (hnone : ∀ hd ∈ l₁ ++ ⟨pid, .start⟩ :: l₂, hd.pc.isLoaded = false) :
    Counted maxClients count (l₁ ++ ⟨pid, .loaded count⟩ :: l₂) where
  counter := by simpa using h.counter
  loaded hd hmem v hv := by
    simp only [List.mem_append, List.mem_cons] at hmem
    rcases hmem with hmem | rfl | hmem
    · exact h.loaded hd (by simp [hmem]) v hv
    · exact (HandlerPc.loaded.inj hv).symm
    · exact h.loaded hd (by simp [hmem]) v hv
  one := by
    have h₁ : l₁.countP (fun h => h.pc.isLoaded) = 0 :=
      List.countP_eq_zero.mpr fun hd hmem => by simp [hnone hd (by simp [hmem])]
    have h₂ : l₂.countP (fun h => h.pc.isLoaded) = 0 :=
      List.countP_eq_zero.mpr fun hd hmem => by simp [hnone hd (by simp [hmem])]
    simp [List.countP_cons, h₁, h₂]

theorem Counted.store {v : ℤ} (h : Counted maxClients count (l₁ ++ ⟨pid, .loaded v⟩ :: l₂)) :
    Counted maxClients (v - 1) (l₁ ++ ⟨pid, .session⟩ :: l₂) := by
  have hv : v = count := h.loaded ⟨pid, .loaded v⟩ (by simp) v rfl
  have hone := h.one
  simp only [List.countP_append, List.countP_cons, HandlerPc.isLoaded_loaded, if_true] at hone
  have h₁ : l₁.countP (fun h => h.pc.isLoaded) = 0 := by omega
  have h₂ : l₂.countP (fun h => h.pc.isLoaded) = 0 := by omega
  constructor
  · have hc := h.counter
    simp only [List.countP_append, List.countP_cons, HandlerPc.starting_loaded,
      HandlerPc.starting_session, Bool.not_true, Bool.not_false, Bool.false_eq_true, if_true,
      if_false] at hc ⊢
    push_cast at hc ⊢
    omega
  · intro hd hmem w hw
    exfalso
    have hload : hd.pc.isLoaded = true := by rw [hw]; rfl
    simp only [List.mem_append, List.mem_cons] at hmem
    rcases hmem with hmem | rfl | hmem
    · exact List.countP_eq_zero.mp h₁ hd hmem hload
    · contradiction
    · exact List.countP_eq_zero.mp h₂ hd hmem hload
  · simp [h₁, h₂]

theorem Counted.move {pc pc' : HandlerPc} (h : Counted maxClients count (l₁ ++ ⟨pid, pc⟩ :: l₂))
    (hs : pc.starting = false) (hs' : pc'.starting = false) :
    Counted maxClients count (l₁ ++ ⟨pid, pc'⟩ :: l₂) := by
  constructor
  · simpa [hs, hs'] using h.counter
  · intro hd hmem v hv
    simp only [List.mem_append, List.mem_cons] at hmem
    rcases hmem with hmem | rfl | hmem
    · exact h.loaded hd (by simp [hmem]) v hv
    · simp only at hv
      simp [hv] at hs'
    · exact h.loaded hd (by simp [hmem]) v hv
  · simpa [HandlerPc.isLoaded_of_starting hs, HandlerPc.isLoaded_of_starting hs'] using h.one

theorem FreeFrom.add {n i : ℕ} (h : FreeFrom table n) (hle : i ≤ n) :
    FreeFrom (table.set i pid) (n + 1) := by
  intro x hx
  rw [List.drop_set_of_lt (by omega), ← List.drop_drop] at hx
  exact h x (List.mem_of_mem_drop hx)

theorem FreeFrom.lt {n i : ℕ} {entry : ℤ} (h : FreeFrom table n) (hle : i ≤ n)
    (hget : table[i]? = some entry) (hne : entry ≠ 0) : i < n := by
  by_contra hge
  obtain rfl : i = n := by omega
  have hdrop : (table.drop i)[0]? = some entry := by simpa using hget
  exact hne (h entry (List.mem_of_getElem? hdrop))

theorem FreeFrom.quit {n : ℕ} (h : FreeFrom table n) :
    FreeFrom (Server.clearClient pid table) n := by
  induction table generalizing n with
  | nil => simp [FreeFrom, Server.clearClient]
  | cons y rest ih =>
    intro x hx
    simp only [Server.clearClient] at hx
    cases n with
    | zero =>
      have hrest : FreeFrom rest 0 := fun z hz => h z (by simpa using .inr hz)
      split at hx
      · rcases List.mem_cons.mp hx with rfl | hx
        · rfl
        · exact h x (by simpa using .inr hx)
      · rcases List.mem_cons.mp hx with rfl | hx
        · exact h x (by simp)
        · exact ih hrest x (by simpa using hx)
    | succ n =>
      split at hx
      · exact h x (by simpa using hx)
      · exact ih (n := n) (fun z hz => h z (by simpa using hz)) x (by simpa using hx)

theorem Owned.add {i : ℕ} (h : Owned maxClients table handlers []) (hi : table[i]? = some 0)
    (hp : 0 < pid) (hclear : ∀ hd ∈ handlers, hd.isCleared = false) :
    Owned maxClients (table.set i pid) handlers [pid] where
  size := by simpa using h.size
  listed := by
    have hperm := nonzero_set hi (Int.ne_of_gt hp)
    have hsub := (List.subperm_cons pid).mpr h.listed
    rw [List.append_nil] at hsub
    exact (List.perm_append_singleton pid _).subperm.trans (hsub.trans hperm.symm.subperm)
  room := by
    have hlen := (nonzero_set hi (Int.ne_of_gt hp)).length_eq
    have hlt := nonzero_length_lt hi
    have hsize := h.size
    have hzero : handlers.countP Handler.isCleared = 0 :=
      List.countP_eq_zero.mpr fun hd hmem => by simp [hclear hd hmem]
    simp only [List.length_cons] at hlen
    omega

theorem Owned.fork (h : Owned maxClients table handlers [pid]) :
    Owned maxClients table (handlers ++ [⟨pid, .start⟩]) [] where
  size := h.size
  listed := by
    have hl := h.listed
    simpa [owners_append, owners_cons, Handler.listed, owners] using hl
  room := by simpa [Handler.isCleared] using h.room

theorem Owned.move {pc pc' : HandlerPc} (h : Owned maxClients table (l₁ ++ ⟨pid, pc⟩ :: l₂) pend)
    (hl : Handler.listed ⟨pid, pc'⟩ = Handler.listed ⟨pid, pc⟩)
    (hc : Handler.isCleared ⟨pid, pc'⟩ = Handler.isCleared ⟨pid, pc⟩) :
    Owned maxClients table (l₁ ++ ⟨pid, pc'⟩ :: l₂) pend where
  size := h.size
  listed := by
    have hsub := h.listed
    rw [owners_append, owners_cons] at hsub ⊢
    rwa [hl]
  room := by
    have hroom := h.room
    simp only [List.countP_append, List.countP_cons] at hroom ⊢
    rwa [hc]

theorem Owned.gone {pc : HandlerPc} (h : Owned maxClients table (l₁ ++ ⟨pid, pc⟩ :: l₂) pend) :
    Owned maxClients table (l₁ ++ ⟨pid, .ended⟩ :: l₂) pend where
  size := h.size
  listed := by
    have hsub := h.listed
    refine List.Subperm.trans (List.Sublist.subperm ?_) hsub
    simp only [owners_append, owners_cons, Handler.listed, ne_eq, not_true_eq_false, false_and,
      decide_false, Bool.false_eq_true, if_false, List.nil_append]
    exact ((List.Sublist.refl _).append (List.sublist_append_right _ _)).append_right _
  room := by
    have hroom := h.room
    simp only [List.countP_append, List.countP_cons, Handler.isCleared, reduceCtorEq, decide_false,
      Bool.false_eq_true, if_false] at hroom ⊢
    omega

theorem Owned.quit (h : Owned maxClients table (l₁ ++ ⟨pid, .session⟩ :: l₂) pend) (hp : 0 < pid) :
    Owned maxClients (Server.clearClient pid table) (l₁ ++ ⟨pid, .cleared⟩ :: l₂) pend where
  size := by rw [clearClient_length, h.size]
  listed := by
    rw [nonzero_clearClient table (Int.ne_of_gt hp)]
    have hsub := h.listed.erase pid
    have hmid : (owners (l₁ ++ ⟨pid, .session⟩ :: l₂) ++ pend).Perm
        (pid :: (owners (l₁ ++ ⟨pid, .cleared⟩ :: l₂) ++ pend)) := by
      simp only [owners_append, owners_cons, Handler.listed]
      simp
    have herase := hmid.erase pid
    rw [List.erase_cons_head] at herase
    exact herase.symm.subperm.trans hsub
  room := by
    have hroom := h.room
    have hmem : pid ∈ nonzero table := by
      refine h.listed.subset ?_
      simp [owners_append, owners_cons, Handler.listed]
    rw [nonzero_clearClient table (Int.ne_of_gt hp), List.length_erase_of_mem hmem]
    have hpos := List.length_pos_of_mem hmem
    simp only [List.countP_append, List.countP_cons, Handler.isCleared, reduceCtorEq, decide_false,
      decide_true, Bool.false_eq_true, if_false, if_true] at hroom ⊢
    omega

theorem Queue.Holds.enqueue_or {q : Queue} {xs : List ℤ} (h : q.Holds xs) (x : ℤ) :
    ∃ ys, (q.enqueue x).Holds ys := by
  by_cases hfull : q.isFull
  · exact ⟨xs, by rwa [Queue.enqueue, if_pos hfull]⟩
  · exact ⟨xs ++ [x], h.enqueue hfull⟩

theorem Counted.settled (h : Counted maxClients count handlers)
    (hs : ∀ hd ∈ handlers, hd.pc.starting = false) :
    count = maxClients - (handlers.length : ℕ) := by
  have hall : handlers.countP (fun h => !h.pc.starting) = handlers.length :=
    List.countP_eq_length.mpr fun hd hmem => by simp [hs hd hmem]
  rw [h.counter, hall]

theorem Bounded.top (h : Bounded maxClients s)
    (hok : ¬ s.queue.isEmpty → ∀ hd ∈ s.handlers, hd.pc.starting = false) :
    ¬ (¬ s.queue.isEmpty ∧ s.emptySlotCount > 0) := by
  rintro ⟨hne, hpos⟩
  obtain ⟨xs, hq, hfull⟩ := h.waiting
  have hlen := hfull fun he => hne (hq.isEmpty_iff.mpr he)
  have hcount := h.counted.settled (hok hne)
  omega

theorem Bounded.goto (h : Bounded maxClients s) {pc : ServerPc} {log : List Event}
    (hrun : s.pc ≠ .stopped) (hpend : pending pc = pending s.pc)
    (hpc : PcOk maxClients s.handlers pc) : Bounded maxClients { s with pc := pc, log := log } where
  counted := h.counted
  owned := hpend ▸ h.owned
  free _ := hpend ▸ h.free hrun
  pids := h.pids
  pcOk := hpc
  waiting := h.waiting

theorem Bounded.serve (h : Bounded maxClients s) (hok : Settled s .serve)
    (hn : s.serve = some t) : Bounded maxClients t := by
  have hmove := serve_move hn
  have hpcOk := h.pcOk
  have howned := h.owned
  have hfree := h.free
  unfold Settled at hok
  generalize hpc : s.pc = pc at hmove hok hpcOk howned hfree
  have goto {pc' : ServerPc} {log : List Event} (hrun : s.pc ≠ .stopped)
      (hpend : pending pc' = pending s.pc) (hpc' : PcOk maxClients s.handlers pc') :
      Bounded maxClients { s with pc := pc', log := log } := h.goto hrun hpend hpc'
  cases hmove with
  | dequeue hne hpos => exact (h.top hok ⟨hne, hpos⟩).elim
  | dequeued pid => exact hpcOk.elim
  | poll | nothing | refuse pid =>
    exact goto (by simp [hpc]) (by simp [hpc, pending]) trivial
  | take pid mode i hget =>
    obtain ⟨hpid, -, hle⟩ := hpcOk
    exact ⟨h.counted, howned.add hget hpid (hok hget), fun _ => (hfree (by simp)).add hle, h.pids,
      hpid, h.waiting⟩
  | pass pid mode i hget hne =>
    obtain ⟨hpid, hmode, hle⟩ := hpcOk
    have hlt := (hfree (by simp)).lt hle hget hne
    exact goto (by simp [hpc]) (by simp [hpc, pending]) ⟨hpid, hmode, hlt⟩
  | full pid mode i hget hzero hone _ =>
    obtain ⟨-, hmode, hle⟩ := hpcOk
    have hlen : maxClients ≤ s.handlers.length := by
      have hsize := howned.size
      have hge := List.getElem?_eq_none_iff.mp hget
      omega
    rcases hmode with hmode | hmode
    · rw [hzero hmode]
      exact goto (by simp [hpc]) (by simp [hpc, pending]) hlen
    · rw [hone hmode]
      exact goto (by simp [hpc]) (by simp [hpc, pending]) hlen
  | wait pid | connect pid => exact goto (by simp [hpc]) (by simp [hpc, pending]) hpcOk
  | enqueue pid =>
    obtain ⟨xs, hq, -⟩ := h.waiting
    obtain ⟨ys, hys⟩ := hq.enqueue_or pid
    exact ⟨h.counted, howned, fun _ => hfree (by simp), h.pids, trivial, ys, hys, fun _ => hpcOk⟩
  | fork pid =>
    obtain ⟨xs, hq, hfull⟩ := h.waiting
    have hfree := hfree (by simp)
    refine ⟨h.counted.fork, howned.fork, fun _ => ?_, ?_, trivial, xs, hq, fun hne => ?_⟩
    · simpa [pending] using hfree
    · intro hd hmem
      rcases List.mem_append.mp hmem with hmem | hmem
      · exact h.pids hd hmem
      · simp only [List.mem_singleton] at hmem
        exact hmem ▸ hpcOk
    · have hlen := hfull hne
      simp only [List.length_append]
      omega

theorem PcOk.of_length {pc : ServerPc} {handlers' : List Handler} (h : PcOk maxClients handlers pc)
    (hlen : handlers'.length = handlers.length) : PcOk maxClients handlers' pc := by
  cases pc <;> simp only [PcOk, hlen] at h ⊢ <;> exact h

theorem Bounded.handle (h : Bounded maxClients s) {i : ℕ} {step : HandlerStep}
    (hok : Settled s (.handler i step)) (hn : s.handle i step = some t) :
    Bounded maxClients t := by
  obtain ⟨l₁, l₂, pid, pc, hsplit, hcases⟩ := handle_cases hn
  have hcounted := h.counted
  have howned := h.owned
  have hpid : 0 < pid := h.pids ⟨pid, pc⟩ (by simp [hsplit])
  -- what does not depend on where the child is
  have rest : ∀ pc' : HandlerPc,
      (s.pc ≠ .stopped → FreeFrom s.connectedClients
        ((l₁ ++ ⟨pid, pc'⟩ :: l₂ : List Handler).length + (pending s.pc).length)) ∧
      (∀ hd ∈ l₁ ++ ⟨pid, pc'⟩ :: l₂, 0 < hd.clientPid) ∧
      PcOk maxClients (l₁ ++ ⟨pid, pc'⟩ :: l₂) s.pc ∧
      ∃ xs, s.queue.Holds xs ∧ (xs ≠ [] → maxClients ≤ (l₁ ++ ⟨pid, pc'⟩ :: l₂).length) := by
    intro pc'
    have hlen : (l₁ ++ ⟨pid, pc'⟩ :: l₂ : List Handler).length = s.handlers.length := by
      simp [hsplit]
    refine ⟨hlen ▸ h.free, ?_, h.pcOk.of_length hlen, hlen ▸ h.waiting⟩
    intro hd hmem
    simp only [List.mem_append, List.mem_cons] at hmem
    rcases hmem with hmem | rfl | hmem
    · exact h.pids hd (by simp [hsplit, hmem])
    · exact hpid
    · exact h.pids hd (by simp [hsplit, hmem])
  rw [hsplit] at hcounted howned
  rcases hcases with ⟨rfl, rfl, rfl⟩ | ⟨v, rfl, rfl⟩ | ⟨rfl, rfl, rfl⟩ | ⟨rfl, rfl⟩ |
    ⟨rfl, rfl, rfl⟩
  · have hnone : ∀ hd ∈ s.handlers, hd.pc.isLoaded = false := hok
    obtain ⟨hfree, hpids, hpcOk, hwaiting⟩ := rest (.loaded s.emptySlotCount)
    exact ⟨hcounted.load (hsplit ▸ hnone), howned.move rfl rfl, hfree, hpids, hpcOk, hwaiting⟩
  · obtain ⟨hfree, hpids, hpcOk, hwaiting⟩ := rest .session
    exact ⟨hcounted.store, howned.move rfl rfl, hfree, hpids, hpcOk, hwaiting⟩
  · obtain ⟨hfree, hpids, hpcOk, hwaiting⟩ := rest .cleared
    exact ⟨hcounted.move rfl rfl, howned.quit hpid, fun hr => (hfree hr).quit, hpids, hpcOk,
      hwaiting⟩
  · obtain ⟨hfree, hpids, hpcOk, hwaiting⟩ := rest .ended
    exact ⟨hcounted.move rfl rfl, howned.gone, hfree, hpids, hpcOk, hwaiting⟩
  · obtain ⟨hfree, hpids, hpcOk, hwaiting⟩ := rest .ended
    exact ⟨hcounted.move rfl rfl, howned.gone, hfree, hpids, hpcOk, hwaiting⟩

theorem bounded_start (hs : (bibo maxClients).start s) : Bounded maxClients s := by
  obtain ⟨htable, hcount, ⟨items, hq⟩, hpc, hhandlers, -⟩ := hs
  refine ⟨?_, ?_, fun _ x hx => ?_, by simp [hhandlers], by simp [hpc, PcOk], [],
    hq ▸ Queue.holds_initializeQueue _, fun h => (h rfl).elim⟩
  · exact ⟨by simp [hcount, hhandlers], by simp [hhandlers], by simp [hhandlers]⟩
  · exact ⟨by simp [htable], by simp [hhandlers, hpc, pending, owners],
      by simp [htable, hhandlers, nonzero]⟩
  · rw [htable] at hx
    exact List.eq_of_mem_replicate (List.mem_of_mem_drop hx)

theorem bounded_inductive (maxClients : ℕ) :
    (bibo maxClients).Inductive Settled (Bounded maxClients) where
  base _ hs := bounded_start hs
  keep s a t h hok hn := by
    cases a with
    | serve => exact h.serve hok hn
    | request pid mode =>
      simp only [bibo, Server.next] at hn
      split at hn
      · next hreq =>
        obtain ⟨hpc, hpid, hmode⟩ := hreq
        cases hn
        exact h.goto (by simp [hpc]) (by simp [hpc, pending]) ⟨hpid, hmode, Nat.zero_le _⟩
      · contradiction
    | stop =>
      simp only [bibo, Server.next] at hn
      split at hn
      · contradiction
      · cases hn
        have howned := h.owned
        refine ⟨h.counted, ⟨howned.size, ?_, howned.room⟩, fun hr => (hr rfl).elim, h.pids,
          trivial, h.waiting⟩
        exact ((List.Sublist.refl _).append (List.nil_sublist _)).subperm.trans howned.listed
    | handler i step => exact h.handle hok hn

end Steps

/-! ### Capacity -/

theorem served_eq (handlers : List Handler) : handlers.countP Handler.live
    = (owners handlers).length + handlers.countP Handler.isCleared := by
  induction handlers with
  | nil => rfl
  | cons h rest ih =>
    rw [owners_cons, List.countP_cons, List.countP_cons, ih, List.length_append]
    obtain ⟨pid, pc⟩ := h
    cases pc <;> simp [Handler.live, Handler.listed, Handler.isCleared] <;> omega

/-- When the parent looks at the counter only after all children have stored
it, one after the other, and no entry is reused too early, no more than
`max_clients` clients are served at once. -/
theorem served_le_max (maxClients : ℕ) (s : Server)
    (hr : (bibo maxClients).Reaches Settled s) : s.served ≤ maxClients := by
  have h := (bounded_inductive maxClients).holds hr
  have hlen := h.owned.listed.length_le
  have hroom := h.owned.room
  rw [List.length_append] at hlen
  rw [Server.served, served_eq]
  omega

def oneServedOneWaiting : List Action :=
  Action.visit 11 0 3 ++ [.handler 0 .load, .handler 0 .store] ++ Action.visit 12 1 4

theorem oneServed_bounded : ∃ s, (bibo 1).Reaches Settled s ∧
    s.log = [.read 11, .told 11 2, .read 12, .told 12 1] ∧ s.served ≤ 1 := by
  have hrun : (((bibo 1).guarded Settled).run (.init 1) oneServedOneWaiting).map Server.log
      = some [.read 11, .told 11 2, .read 12, .told 12 1] := by decide
  obtain ⟨s, hs, hlog⟩ := Option.map_eq_some_iff.mp hrun
  have hr := Machine.Reaches.run (.start (Server.init_start 1)) _ hs
  exact ⟨s, hr, hlog, served_le_max 1 s hr⟩

def CapacityKept (maxClients : ℕ) : Prop :=
  ∀ s, (bibo maxClients).Reachable s → s.served ≤ maxClients

/-- The parent sees the counter before the child has changed it and takes the
waiting client too. -/
theorem capacity_exceeded : ¬ CapacityKept 1 := by
  intro h
  have hrun : ((bibo 1).run (.init 1) (Action.visit 11 0 3 ++ Action.visit 12 1 7)).map
      Server.served = some 2 := by decide
  obtain ⟨s, hs, hserved⟩ := Option.map_eq_some_iff.mp hrun
  have hr := Machine.Reachable.run (.start (Server.init_start 1)) _ hs
  exact absurd (h s hr) (by omega)

/-! ### Slot accounting -/

/-- A client sends one request, so its pid has not been read before. -/
def Fresh (s : Server) : Action → Prop
  | .request pid _ => .read pid ∉ s.log
  | _ => True

instance (s : Server) (a : Action) : Decidable (Fresh s a) := by
  unfold Fresh
  split <;> infer_instance

/-- No admission, fork, start or exit of a child is in progress. -/
def Idle (s : Server) : Prop :=
  (s.pc = .top ∨ s.pc = .read) ∧ ∀ h ∈ s.handlers, h.pc = .session ∨ h.pc = .ended

/-- The counter, the table and the live children say the same. -/
def Accounted (maxClients : ℕ) (s : Server) : Prop :=
  s.emptySlotCount = maxClients - (s.served : ℤ) ∧
  s.emptySlotCount = (s.connectedClients.count 0 : ℤ) ∧
  ∀ h ∈ s.handlers, h.live = true → s.connectedClients.count h.clientPid = 1

def active : ServerPc → List ℤ
  | .dequeued pid | .add pid _ _ | .refuse pid | .wait pid | .enqueue pid | .connect pid
  | .fork pid => [pid]
  | .top | .read | .stopped => []

def Server.clients (s : Server) : List ℤ := s.handlers.map Handler.clientPid ++ active s.pc

structure Distinct (s : Server) : Prop where
  nodup : s.clients.Nodup
  seen : ∀ pid ∈ s.clients, .read pid ∈ s.log

section Accounting
variable {maxClients : ℕ} {s t : Server} {pid : ℤ}

theorem Distinct.of_sublist (h : Distinct s) (hsub : t.clients.Sublist s.clients)
    (hlog : s.log.Sublist t.log) : Distinct t where
  nodup := h.nodup.sublist hsub
  seen pid hp := hlog.subset (h.seen pid (hsub.subset hp))

theorem Distinct.request (h : Distinct s) (hpc : s.pc = .read) (hfresh : .read pid ∉ s.log)
    (mode : ℤ) :
    Distinct { s with log := s.log ++ [.read pid], pc := .add pid mode 0 } := by
  have hold : s.clients = s.handlers.map Handler.clientPid := by
    simp [Server.clients, hpc, active]
  have hnot : pid ∉ s.clients := fun hp => hfresh (h.seen pid hp)
  have hnew : Server.clients { s with log := s.log ++ [.read pid], pc := .add pid mode 0 }
      = s.clients ++ [pid] := by simp [Server.clients, hpc, active]
  constructor
  · rw [hnew]
    refine List.nodup_append.mpr ⟨h.nodup, List.nodup_singleton pid, ?_⟩
    rintro a ha b hb rfl
    exact hnot (List.mem_singleton.mp hb ▸ ha)
  · intro p hp
    rw [hnew] at hp
    rcases List.mem_append.mp hp with hp | hp
    · exact List.mem_append_left _ (h.seen p hp)
    · obtain rfl := List.mem_singleton.mp hp
      exact List.mem_append_right _ List.mem_cons_self

theorem serve_clients (hb : Bounded maxClients s) (hok : Settled s .serve)
    (hn : s.serve = some t) : t.clients.Sublist s.clients ∧ s.log.Sublist t.log := by
  have hmove := serve_move hn
  unfold Settled at hok
  generalize hpc : s.pc = pc at hmove hok
  cases hmove with
  | dequeue hne hpos => exact (hb.top hok ⟨hne, hpos⟩).elim
  | dequeued pid =>
    have hpcOk := hb.pcOk
    rw [hpc] at hpcOk
    exact hpcOk.elim
  | full pid mode i _ _ _ hpc' =>
    rcases hpc' with rfl | rfl | rfl
    all_goals simp [Server.clients, hpc, active]
  | _ => simp [Server.clients, hpc, active]

theorem Distinct.keep (h : Distinct s) (hb : Bounded maxClients s) {a : Action}
    (hok : Settled s a) (hfresh : Fresh s a) (hn : s.next a = some t) : Distinct t := by
  cases a with
  | serve =>
    obtain ⟨hsub, hlog⟩ := serve_clients hb hok hn
    exact h.of_sublist hsub hlog
  | request pid mode =>
    simp only [Server.next] at hn
    split at hn
    · next hreq =>
      cases hn
      exact h.request hreq.1 hfresh mode
    · contradiction
  | stop =>
    simp only [Server.next] at hn
    split at hn
    · contradiction
    · cases hn
      exact h.of_sublist (by simp [Server.clients, active]) (List.Sublist.refl _)
  | handler i step =>
    obtain ⟨l₁, l₂, pid, pc, hsplit, hcases⟩ := handle_cases hn
    refine h.of_sublist ?_ ?_
    · have hclients : t.clients = s.clients := by
        rcases hcases with ⟨-, -, rfl⟩ | ⟨v, -, rfl⟩ | ⟨-, -, rfl⟩ | ⟨-, rfl⟩ | ⟨-, -, rfl⟩
        all_goals simp [Server.clients, hsplit]
      rw [hclients]
    · rcases hcases with ⟨-, -, rfl⟩ | ⟨v, -, rfl⟩ | ⟨-, -, rfl⟩ | ⟨-, rfl⟩ | ⟨-, -, rfl⟩
      all_goals exact List.Sublist.refl _

theorem distinct_inductive (maxClients : ℕ) :
    (bibo maxClients).Inductive (fun s a => Settled s a ∧ Fresh s a)
      fun s => Bounded maxClients s ∧ Distinct s :=
  ((bounded_inductive maxClients).mono fun _ _ h => h.1).and
    (fun s hs => by
      obtain ⟨-, -, -, hpc, hhandlers, -⟩ := hs
      constructor <;> simp [Server.clients, hpc, hhandlers, active])
    fun _ _ _ hb _ h hok hn => h.keep hb hok.1 hok.2 hn

theorem FreeFrom.nonzero_take {table : List ℤ} {n : ℕ} (h : FreeFrom table n) :
    nonzero (table.take n) = nonzero table := by
  have htail : nonzero (table.drop n) = [] :=
    List.filter_eq_nil_iff.mpr fun x hx => by simp [h x hx]
  have hall : nonzero (table.take n ++ table.drop n)
      = nonzero (table.take n) ++ nonzero (table.drop n) := List.filter_append ..
  rw [List.take_append_drop, htail, List.append_nil] at hall
  exact hall.symm

theorem FreeFrom.nonzero_le {table : List ℤ} {n : ℕ} (h : FreeFrom table n) :
    (nonzero table).length ≤ n := by
  rw [← h.nonzero_take]
  exact Nat.le_trans (List.length_filter_le _ _) (List.length_take_le n table)

theorem nonzero_length_add_count (table : List ℤ) :
    (nonzero table).length + table.count 0 = table.length := by
  induction table with
  | nil => rfl
  | cons x rest ih =>
    by_cases hx : x = 0
    · subst hx
      simp only [nonzero, List.filter_cons, ne_eq, not_true_eq_false, decide_false,
        Bool.false_eq_true, if_false, List.count_cons_self, List.length_cons] at ih ⊢
      omega
    · simp only [nonzero, List.filter_cons, ne_eq, hx, not_false_eq_true, decide_true, if_true,
        List.count_cons_of_ne hx, List.length_cons] at ih ⊢
      omega

theorem idle_table (hb : Bounded maxClients s) (hi : Idle s)
    (hall : ∀ h ∈ s.handlers, h.pc ≠ .ended) :
    (s.handlers.map Handler.clientPid).Perm (nonzero s.connectedClients) := by
  have hpend : pending s.pc = [] := by
    rcases hi.1 with hpc | hpc <;> simp [hpc, pending]
  have hrun : s.pc ≠ .stopped := by
    rcases hi.1 with hpc | hpc <;> simp [hpc]
  have howners : owners s.handlers = s.handlers.map Handler.clientPid := by
    rw [owners, List.filter_eq_self.mpr]
    intro h hmem
    have hsession := (hi.2 h hmem).resolve_right (hall h hmem)
    simp [Handler.listed, hsession]
  have hlisted := hb.owned.listed
  rw [hpend, List.append_nil, howners] at hlisted
  refine hlisted.perm_of_length_le ?_
  have hle := (hb.free hrun).nonzero_le
  simpa [hpend] using hle

theorem served_eq_length_iff : s.served = s.handlers.length ↔ ∀ h ∈ s.handlers, h.pc ≠ .ended := by
  rw [Server.served, List.countP_eq_length]
  simp [Handler.live]

end Accounting

/-- The three counts agree in an idle state exactly as long as no session has
ended: a slot that was taken is never given back. -/
theorem accounted_iff (maxClients : ℕ) (s : Server)
    (hr : (bibo maxClients).Reaches (fun s a => Settled s a ∧ Fresh s a) s) (hi : Idle s) :
    Accounted maxClients s ↔ ∀ h ∈ s.handlers, h.pc ≠ .ended := by
  obtain ⟨hb, hd⟩ := (distinct_inductive maxClients).holds hr
  have hcount := hb.counted.settled (fun h hmem => by
    rcases hi.2 h hmem with hpc | hpc <;> rw [hpc] <;> rfl)
  constructor
  · rintro ⟨hserved, -, -⟩
    exact served_eq_length_iff.mp (by omega)
  · intro hall
    have hserved := served_eq_length_iff.mpr hall
    have hperm := idle_table hb hi hall
    have hlen := hperm.length_eq
    have hsum := nonzero_length_add_count s.connectedClients
    have hsize := hb.owned.size
    rw [List.length_map] at hlen
    refine ⟨by omega, by omega, fun h hmem _ => ?_⟩
    have hpid := hb.pids h hmem
    have hmemPid : h.clientPid ∈ s.handlers.map Handler.clientPid := List.mem_map_of_mem hmem
    have hnodup : (s.handlers.map Handler.clientPid).Nodup :=
      hd.nodup.sublist (List.sublist_append_left _ _)
    have hone := List.count_eq_one_of_mem hnodup hmemPid
    rw [hperm.count_eq] at hone
    rwa [nonzero, List.count_filter (by simpa using (Int.ne_of_gt hpid))] at hone

def twoServed : List Action :=
  Action.visit 11 0 3 ++ [.handler 0 .load, .handler 0 .store] ++
    Action.visit 12 0 4 ++ [.handler 1 .load, .handler 1 .store]

def twoServedState : Server :=
  (((bibo 2).guarded fun s a => Settled s a ∧ Fresh s a).run (.init 2) twoServed).get (by decide)

instance (s : Server) : Decidable (Idle s) := inferInstanceAs (Decidable (_ ∧ _))

theorem twoServed_accounted : Accounted 2 twoServedState := by
  have hr : (bibo 2).Reaches (fun s a => Settled s a ∧ Fresh s a) twoServedState :=
    .run (.start (Server.init_start 2)) _ (Option.some_get _).symm
  exact (accounted_iff 2 twoServedState hr (by decide)).mpr (by decide)

def SlotsAccounted (maxClients : ℕ) : Prop :=
  ∀ s, (bibo maxClients).Reaches Fresh s → Idle s → Accounted maxClients s

/-- One client comes and quits: its entry is free again, the counter is not. -/
theorem slot_lost : ¬ SlotsAccounted 1 := by
  intro h
  have hrun : (((bibo 1).guarded Fresh).run (.init 1) (Action.visit 11 0 3 ++
      [.handler 0 .load, .handler 0 .store, .handler 0 .quit, .handler 0 .exit])).map
      (fun s => (s.pc, s.handlers, s.emptySlotCount, s.connectedClients))
      = some (.top, [⟨11, .ended⟩], 0, [0]) := by decide
  obtain ⟨s, hs, hf⟩ := Option.map_eq_some_iff.mp hrun
  simp only [Prod.mk.injEq] at hf
  obtain ⟨hpc, hhandlers, hcount, htable⟩ := hf
  have hr := Machine.Reaches.run (.start (Server.init_start 1)) _ hs
  have hi : Idle s := ⟨.inl hpc, by simp [hhandlers]⟩
  have hslots := (h s hr hi).2.1
  rw [hcount, htable] at hslots
  exact absurd hslots (by decide)

end AdvancedCProjects.Bibo
