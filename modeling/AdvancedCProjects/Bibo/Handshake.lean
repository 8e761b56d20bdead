import AdvancedCProjects.Bibo.Moves
import AdvancedCProjects.Bibo.Order

/-!
# From the request to the command loop (biboClient.c:135-194)

Client processes beside the server. A client reads the notifications of its
FIFO in order. Its `open` for writing blocks until a child of the server has
opened the other end, which `handle_client` does for its own pid. The requests
that the server reads are not tied to the clients here, since they may be torn.
-/

namespace AdvancedCProjects.Bibo
open Base

/-- Before the first notification, in the loop of a waiting client, before
`open`, in the command loop, gone. -/
inductive ClientPc where
  | status
  | waiting
  | opening
  | commandLoop
  | left
  deriving DecidableEq

/-- `responses` notifications have been read. -/
structure Client where
  clientPid : ℤ
  connectionMode : ℤ
  pc : ClientPc
  responses : ℕ
  deriving DecidableEq

/-- `leave` is `quit`, SIGINT or SIGTERM. -/
inductive ClientStep where
  | getConnectionStatus
  | openFifo
  | leave

structure Handshake where
  server : Server
  clients : List Client

inductive HandshakeAction where
  | server (action : Action)
  | arrive (clientPid connectionMode : ℤ)
  | client (i : ℕ) (step : ClientStep)

namespace Handshake

/-- What `send_notification` has written for a client. -/
def notifications (log : List Event) (clientPid : ℤ) : List ℤ :=
  log.filterMap fun
    | .told pid flag => if pid = clientPid then some flag else none
    | .read _ => none

/-- A child reads from the client's FIFO. -/
def openForReading (handlers : List Handler) (clientPid : ℤ) : Prop :=
  ∃ h ∈ handlers, h.clientPid = clientPid ∧ (h.pc = .session ∨ h.pc = .cleared)

instance (handlers : List Handler) (clientPid : ℤ) :
    Decidable (openForReading handlers clientPid) :=
  inferInstanceAs (Decidable (∃ h ∈ handlers, _))

/-- The branches behind `get_connection_status`. -/
def answered (c : Client) (status : ℤ) : ClientPc :=
  match c.pc with
  | .status => if c.connectionMode = 1 ∧ status ≠ 2 then .waiting else .opening
  | .waiting => if status = 2 then .opening else .waiting
  | pc => pc

def clientStep (s : Server) (c : Client) : ClientStep → Option Client
  | .getConnectionStatus =>
    if c.pc = .status ∨ c.pc = .waiting then
      match (notifications s.log c.clientPid)[c.responses]? with
      | none => some c
      | some status => some { c with pc := answered c status, responses := c.responses + 1 }
    else none
  | .openFifo =>
    if c.pc = .opening ∧ openForReading s.handlers c.clientPid then
      some { c with pc := .commandLoop }
    else none
  | .leave => some { c with pc := .left }

def next (s : Handshake) : HandshakeAction → Option Handshake
  | .server action => (s.server.next action).map fun server => { s with server := server }
  | .arrive pid mode =>
    if mode = 0 ∨ mode = 1 then some { s with clients := s.clients ++ [⟨pid, mode, .status, 0⟩] }
    else none
  | .client i step =>
    match s.clients[i]? with
    | none => none
    | some c => (clientStep s.server c step).map fun c => { s with clients := s.clients.set i c }

end Handshake

def handshake (maxClients : ℕ) : Machine Handshake HandshakeAction where
  start s := (bibo maxClients).start s.server ∧ s.clients = []
  next := Handshake.next

/-! ### What the steps keep -/

/-- A client that is told 2 has a child, or the parent is just about to fork it. -/
structure Forked (s : Server) : Prop where
  told : ∀ h ∈ s.handlers, .told h.clientPid 2 ∈ s.log
  fork : ∀ pid, s.pc = .fork pid → .told pid 2 ∈ s.log
  child : ∀ pid, .told pid 2 ∈ s.log →
    pid ∈ s.handlers.map Handler.clientPid ∨ s.pc = .fork pid ∨ s.pc = .stopped

/-- Who is in the command loop has a child, which was announced before the fork. -/
def Admitted (s : Server) (c : Client) : Prop :=
  c.pc = .commandLoop → c.clientPid ∈ s.handlers.map Handler.clientPid

section Steps
variable {maxClients : ℕ} {s t : Server} {pid flag : ℤ} {pc : ServerPc}

theorem Forked.goto (h : Forked s) (hpc : ∀ pid, s.pc ≠ .fork pid) (hrun : s.pc ≠ .stopped)
    (hpc' : ∀ pid, pc ≠ .fork pid) (table : List ℤ) (queue : Queue) {log : List Event}
    (hlog : ∀ p, .told p 2 ∈ log ↔ .told p 2 ∈ s.log) :
    Forked { s with connectedClients := table, queue := queue, pc := pc, log := log } where
  told hd hmem := (hlog _).mpr (h.told hd hmem)
  fork pid hp := (hpc' pid hp).elim
  child pid htold := by
    rcases h.child pid ((hlog pid).mp htold) with hmem | hp | hp
    · exact .inl hmem
    · exact (hpc pid hp).elim
    · exact (hrun hp).elim

theorem Forked.announce (h : Forked s) (hpc : ∀ pid, s.pc ≠ .fork pid) (hrun : s.pc ≠ .stopped) :
    Forked { s with log := s.log ++ [.told pid 2], pc := .fork pid } where
  told hd hmem := List.mem_append_left _ (h.told hd hmem)
  fork p hp := by
    obtain rfl := ServerPc.fork.inj hp
    simp
  child p htold := by
    rcases List.mem_append.mp htold with htold | htold
    · rcases h.child p htold with hmem | hp | hp
      · exact .inl hmem
      · exact (hpc p hp).elim
      · exact (hrun hp).elim
    · cases List.mem_singleton.mp htold
      exact .inr (.inl rfl)

theorem Forked.fork_child (h : Forked s) (hpc : s.pc = .fork pid) :
    Forked { s with handlers := s.handlers ++ [⟨pid, .start⟩], pc := .top } where
  told hd hmem := by
    rcases List.mem_append.mp hmem with hmem | hmem
    · exact h.told hd hmem
    · obtain rfl := List.mem_singleton.mp hmem
      exact h.fork pid hpc
  fork _ hp := by contradiction
  child p htold := by
    rcases h.child p htold with hmem | hp | hp
    · exact .inl (by rw [List.map_append]; exact List.mem_append_left _ hmem)
    · obtain rfl := ServerPc.fork.inj (hpc.symm.trans hp)
      exact .inl (by simp)
    · simp [hpc] at hp

theorem Forked.move (h : Forked s) (hmove : ParentMove s s.pc t) : Forked t := by
  generalize hpc : s.pc = pc at hmove
  have goto (pc' : ServerPc) (table : List ℤ) (queue : Queue) (log : List Event)
      (hne : ∀ pid, pc ≠ .fork pid) (hrun : pc ≠ .stopped) (hpc' : ∀ pid, pc' ≠ .fork pid)
      (hlog : ∀ p, .told p 2 ∈ log ↔ .told p 2 ∈ s.log) :
      Forked { s with connectedClients := table, queue := queue, pc := pc', log := log } :=
    h.goto (hpc ▸ hne) (hpc ▸ hrun) hpc' table queue hlog
  cases hmove with
  | dequeue | poll | nothing | take | pass | enqueue =>
    exact goto _ _ _ _ (by simp) (by simp) (by simp) fun _ => Iff.rfl
  | full pid mode i _ _ _ hpc' =>
    rcases hpc' with rfl | rfl | rfl
    all_goals exact goto _ _ _ _ (by simp) (by simp) (by simp) fun _ => Iff.rfl
  | refuse | wait => exact goto _ _ _ _ (by simp) (by simp) (by simp) fun _ => by simp
  | dequeued | connect => exact h.announce (hpc ▸ (by simp)) (hpc ▸ (by simp))
  | fork => exact h.fork_child hpc

theorem handle_pids {i : ℕ} {step : HandlerStep} (hn : s.handle i step = some t) :
    t.handlers.map Handler.clientPid = s.handlers.map Handler.clientPid := by
  obtain ⟨l₁, l₂, pid, pc, hsplit, hcases⟩ := handle_cases hn
  rcases hcases with ⟨-, -, rfl⟩ | ⟨v, -, rfl⟩ | ⟨-, -, rfl⟩ | ⟨-, rfl⟩ | ⟨-, -, rfl⟩
  all_goals simp [hsplit]

theorem forked_inductive (maxClients : ℕ) :
    (bibo maxClients).Inductive (fun _ _ => True) Forked where
  base s hs := by
    obtain ⟨-, -, -, hpc, hhandlers, hlog⟩ := hs
    constructor <;> simp [hpc, hhandlers, hlog]
  keep s a t h _ hn := by
    cases a with
    | serve => exact h.move (serve_move hn)
    | request pid mode =>
      simp only [bibo, Server.next] at hn
      split at hn
      · next hreq =>
        cases hn
        have hadd : ∀ p, ServerPc.add pid mode 0 ≠ .fork p := by simp
        exact h.goto (by simp [hreq.1]) (by simp [hreq.1]) hadd _ _ fun _ => by simp
      · contradiction
    | stop =>
      simp only [bibo, Server.next] at hn
      split at hn
      · contradiction
      · cases hn
        exact ⟨h.told, by simp, fun _ _ => .inr (.inr rfl)⟩
    | handler i step =>
      obtain ⟨hlog, -, hpc⟩ := handle_frame hn
      have hpids := handle_pids hn
      refine ⟨fun hd hmem => ?_, ?_, ?_⟩
      · have hpid : hd.clientPid ∈ s.handlers.map Handler.clientPid :=
          hpids ▸ List.mem_map_of_mem hmem
        obtain ⟨hd', hmem', heq⟩ := List.mem_map.mp hpid
        rw [hlog, ← heq]
        exact h.told hd' hmem'
      · rw [hpc, hlog]
        exact h.fork
      · rw [hpc, hlog, hpids]
        exact h.child

theorem next_pids {a : Action} (hn : s.next a = some t) :
    s.handlers.map Handler.clientPid ⊆ t.handlers.map Handler.clientPid := by
  cases a with
  | serve =>
    have hmove := serve_move hn
    generalize s.pc = pc at hmove
    cases hmove with
    | fork =>
      rw [List.map_append]
      exact List.subset_append_left _ _
    | _ => exact List.Subset.refl _
  | request pid mode =>
    simp only [Server.next] at hn
    split at hn
    · cases hn
      exact List.Subset.refl _
    · contradiction
  | stop =>
    simp only [Server.next] at hn
    split at hn
    · contradiction
    · cases hn
      exact List.Subset.refl _
  | handler i step => exact (handle_pids hn) ▸ List.Subset.refl _

theorem Admitted.step {c c' : Client} {step : ClientStep} (h : Admitted s c)
    (hn : Handshake.clientStep s c step = some c') : Admitted s c' := by
  cases step with
  | getConnectionStatus =>
    simp only [Handshake.clientStep] at hn
    split at hn
    · next hpc =>
      split at hn
      · exact Option.some.inj hn ▸ h
      · next status _ =>
        obtain rfl := Option.some.inj hn
        intro hloop
        rcases hpc with hpc | hpc <;> simp only [Handshake.answered, hpc] at hloop <;>
          split at hloop <;> contradiction
    · contradiction
  | openFifo =>
    simp only [Handshake.clientStep] at hn
    split at hn
    · next hopen =>
      obtain rfl := Option.some.inj hn
      obtain ⟨hd, hmem, heq, -⟩ := hopen.2
      exact fun _ => heq ▸ List.mem_map_of_mem hmem
    · contradiction
  | leave =>
    obtain rfl := Option.some.inj hn
    intro hloop
    contradiction

/-- The server takes its steps as if there were no clients. -/
theorem handshake_inductive (maxClients : ℕ) : (handshake maxClients).Inductive (fun _ _ => True)
    fun s => Forked s.server ∧ ∀ c ∈ s.clients, Admitted s.server c where
  base s hs := ⟨(forked_inductive maxClients).base _ hs.1, by simp [hs.2]⟩
  keep s a t h _ hn := by
    cases a with
    | server action =>
      obtain ⟨server, hserver, rfl⟩ := Option.map_eq_some_iff.mp hn
      exact ⟨(forked_inductive maxClients).keep _ _ _ h.1 trivial hserver,
        fun c hmem hloop => next_pids hserver (h.2 c hmem hloop)⟩
    | arrive pid mode =>
      simp only [handshake, Handshake.next] at hn
      split at hn
      · cases hn
        refine ⟨h.1, fun c hmem => ?_⟩
        rcases List.mem_append.mp hmem with hmem | hmem
        · exact h.2 c hmem
        · obtain rfl := List.mem_singleton.mp hmem
          intro hloop
          contradiction
      · contradiction
    | client i step =>
      simp only [handshake, Handshake.next] at hn
      split at hn
      · contradiction
      · next c hget =>
        obtain ⟨c', hc', rfl⟩ := Option.map_eq_some_iff.mp hn
        refine ⟨h.1, fun d hmem => ?_⟩
        rcases List.mem_or_eq_of_mem_set hmem with hmem | rfl
        · exact h.2 d hmem
        · exact (h.2 c (List.mem_of_getElem? hget)).step hc'

end Steps

def Handshake.init (maxClients : ℕ) : Handshake := ⟨Server.init maxClients, []⟩

/-- Client 12 waits, is taken out of the queue and gets its child. -/
def waitingServed : List HandshakeAction :=
  let steps : List Action := Action.visit 11 0 3 ++ Action.visit 12 1 4 ++
    [.serve, .serve, .serve, .handler 1 .load, .handler 1 .store]
  .arrive 12 1 :: steps.map .server ++
    [.client 0 .getConnectionStatus, .client 0 .getConnectionStatus, .client 0 .openFifo]

end AdvancedCProjects.Bibo
