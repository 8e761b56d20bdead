import AdvancedCProjects.Bibo.Server
import AdvancedCProjects.Bibo.Session

/-!
# Clients that stop writing (biboServer.c:297-371, 604-611, biboClient.c:22-43)

The loop of `handle_client` on all that a client writes before its end of the FIFO
is closed. Behind that every `read` returns 0 and the loop begins anew. A client
that is interrupted sends SIGUSR1 to the server, whose handler only prints.
-/

namespace AdvancedCProjects.Bibo
open Base

namespace Leaving

/-- What one turn of the loop meets: how many bytes the two reads return, what
`message_len` and the array held, what the system answers, and whether somebody
still reads the responses. -/
structure Turn where
  n : ℕ
  old : ℤ
  m : ℕ
  stale : Bytes
  env : Env
  reader : Bool

/-- A `read` from a FIFO: at least one byte if there is one, and what is left. -/
def read (limit n : ℕ) (pending : Bytes) : Bytes × Bytes :=
  (pending.take (min limit (max 1 n)), pending.drop (min limit (max 1 n)))

/-- The length and the message; `none` if there is no array of that length. With a
negative length the second `read` fails, and the message is what the memory held. -/
def takeMessage (stackRoom : ℕ) (t : Turn) (pending : Bytes) : Option Bytes × Bytes :=
  let (got, pending) := read 4 t.n pending
  let messageLen := decodeInt (got ++ (encodeInt 4 t.old).drop got.length)
  if stackRoom ≤ messageLen then (none, pending)
  else if messageLen < 0 then (some (cstr t.stale), pending)
  else
    let (got, pending) := read messageLen.toNat t.m pending
    (some (cstr ((got ++ t.stale).take messageLen.toNat)), pending)

/-- The loop goes on, or the process has ended and left the table like this. -/
inductive Loop where
  | looping (pending : Bytes)
  | ended (connectedClients : List ℤ)
  deriving DecidableEq

theorem read_whole {limit n : ℕ} {field : Bytes} (later : Bytes) (hlimit : field.length = limit)
    (hn : limit ≤ n) : read limit n (field ++ later) = (field, later) := by
  have hcount : min limit (max 1 n) = field.length := by omega
  rw [read, hcount, List.take_left, List.drop_left]

/-- A request that is read whole is the message. -/
theorem takeMessage_request {stackRoom : ℕ} {t : Turn} {message : Bytes} (later : Bytes)
    (hroom : message.length < stackRoom) (hfits : message.length < 2 ^ 31) (hn : 4 ≤ t.n)
    (hm : message.length ≤ t.m) :
    takeMessage stackRoom t (request message ++ later) = (some (cstr message), later) := by
  have hlen := read_whole (message ++ later) (encodeInt_length 4 message.length) hn
  have hold : (encodeInt 4 t.old).drop 4 = [] := List.drop_eq_nil_of_le (by simp)
  have hread := read_whole later rfl hm
  rw [request, List.append_assoc, takeMessage, hlen]
  dsimp only
  rw [encodeInt_length, hold, List.append_nil, decodeInt_encodeInt, wrapInt_length hfits,
    if_neg (by omega), if_neg (by omega), Int.toNat_natCast, hread]
  dsimp only
  rw [List.take_left]

section Turns
variable (stackRoom clientPid : ℕ) (connectedClients : List ℤ)

/-- The table in which a message ends the process. `quit` clears the slot before it
writes; a response that nobody reads brings SIGPIPE. -/
def finish (t : Turn) : Option Bytes → Option (List ℤ)
  | none => some connectedClients
  | some message =>
    if message = utf8 "quit" then some (Server.clearClient clientPid connectedClients)
    else match handleMessage t.env clientPid message with
      | .returns written =>
        if written ≠ [] ∧ t.reader = false then some connectedClients else none
      | .exits _ | .fault => some connectedClients

def body : Loop → Turn → Loop
  | .ended table, _ => .ended table
  | .looping pending, t =>
    -- the read returns 0
    if pending = [] then .looping []
    else
      let (message, pending) := takeMessage stackRoom t pending
      match finish clientPid connectedClients t message with
      | none => .looping pending
      | some table => .ended table

variable (stream : Bytes) (turns : ℕ → Turn)

def after : ℕ → Loop
  | 0 => .looping stream
  | k + 1 => body stackRoom clientPid connectedClients (after k) (turns k)

/-- What a reader that goes on for ever has still to read. -/
def unread : ℕ → Bytes
  | 0 => stream
  | k + 1 => if unread k = [] then [] else (takeMessage stackRoom (turns k) (unread k)).2

def message (k : ℕ) : Option Bytes :=
  (takeMessage stackRoom (turns k) (unread stackRoom stream turns k)).1

/-- The turn still finds bytes, and its message ends the process. -/
def EndsAt (k : ℕ) : Prop :=
  unread stackRoom stream turns k ≠ [] ∧
    finish clientPid connectedClients (turns k) (message stackRoom stream turns k) ≠ none

def SlotCleared (table : List ℤ) : Prop :=
  (clientPid : ℤ) ∈ connectedClients →
    table[connectedClients.idxOf (clientPid : ℤ)]? = some 0

def Leaves : Prop :=
  ∃ k table, after stackRoom clientPid connectedClients stream turns k = .ended table ∧
    SlotCleared clientPid connectedClients table

end Turns

section Loop
variable {stackRoom clientPid : ℕ} {connectedClients table : List ℤ} {stream : Bytes}
  {turns : ℕ → Turn}

theorem after_looping (k : ℕ)
    (h : ∀ j < k, ¬ EndsAt stackRoom clientPid connectedClients stream turns j) :
    after stackRoom clientPid connectedClients stream turns k =
      .looping (unread stackRoom stream turns k) := by
  induction k with
  | zero => rfl
  | succ k ih =>
    have hbefore := ih fun j hj => h j (by omega)
    have hnot := h k (by omega)
    rw [after, hbefore, body, unread]
    split
    · rfl
    · next hne =>
      have hgoes : finish clientPid connectedClients (turns k)
          (message stackRoom stream turns k) = none := by
        by_contra hends
        exact hnot ⟨hne, hends⟩
      rw [message] at hgoes
      dsimp only
      rw [hgoes]

theorem after_first {i : ℕ}
    (hbefore : ∀ j < i, ¬ EndsAt stackRoom clientPid connectedClients stream turns j)
    (hne : unread stackRoom stream turns i ≠ [])
    (hends : finish clientPid connectedClients (turns i) (message stackRoom stream turns i) =
      some table) (k : ℕ) :
    after stackRoom clientPid connectedClients stream turns (i + 1 + k) = .ended table := by
  induction k with
  | zero =>
    rw [message] at hends
    rw [Nat.add_zero, after, after_looping i hbefore, body, if_neg hne]
    dsimp only
    rw [hends]
  | succ k ih =>
    rw [← Nat.add_assoc, after, ih]
    rfl

theorem clearClient_slot (clientPid : ℤ) (table : List ℤ) (h : clientPid ∈ table) :
    (Server.clearClient clientPid table)[table.idxOf clientPid]? = some 0 := by
  induction table with
  | nil => exact absurd h List.not_mem_nil
  | cons pid rest ih =>
    by_cases hpid : pid = clientPid
    · subst hpid
      simp [Server.clearClient]
    · have hrest : clientPid ∈ rest := (List.mem_cons.mp h).resolve_left (Ne.symm hpid)
      rw [List.idxOf_cons_ne _ hpid]
      simp only [Server.clearClient, if_neg hpid, List.getElem?_cons_succ]
      exact ih hrest

theorem slotCleared_self (hpid : 0 < clientPid) :
    SlotCleared clientPid connectedClients connectedClients ↔
      (clientPid : ℤ) ∉ connectedClients := by
  constructor
  · intro h hmem
    have hzero := h hmem
    rw [List.getElem?_idxOf hmem] at hzero
    have heq := Option.some.inj hzero
    omega
  · intro hno hmem
    exact absurd hmem hno

theorem finish_table {t : Turn} {message : Option Bytes}
    (h : finish clientPid connectedClients t message = some table) :
    (message = some (utf8 "quit") ∧ table = Server.clearClient clientPid connectedClients) ∨
      (message ≠ some (utf8 "quit") ∧ table = connectedClients) := by
  cases message with
  | none =>
    obtain rfl := Option.some.inj h
    exact .inr ⟨(Option.some_ne_none _).symm, rfl⟩
  | some message =>
    simp only [finish] at h
    split at h
    · next hquit =>
      obtain rfl := Option.some.inj h
      exact .inl ⟨congrArg some hquit, rfl⟩
    · next hquit =>
      have hne : some message ≠ some (utf8 "quit") := fun heq => hquit (Option.some.inj heq)
      split at h
      · split at h
        · exact .inr ⟨hne, (Option.some.inj h).symm⟩
        · contradiction
      · exact .inr ⟨hne, (Option.some.inj h).symm⟩
      · exact .inr ⟨hne, (Option.some.inj h).symm⟩

theorem finish_cleared (hpid : 0 < clientPid) {t : Turn} {message : Option Bytes}
    (h : finish clientPid connectedClients t message = some table) :
    SlotCleared clientPid connectedClients table ↔
      ((clientPid : ℤ) ∈ connectedClients → message = some (utf8 "quit")) := by
  rcases finish_table h with ⟨hquit, rfl⟩ | ⟨hquit, rfl⟩
  · exact iff_of_true (clearClient_slot _ _) fun _ => hquit
  · rw [slotCleared_self hpid]
    exact ⟨fun hno hmem => absurd hmem hno, fun himp hmem => hquit (himp hmem)⟩

theorem first_of_ended {k : ℕ}
    (h : after stackRoom clientPid connectedClients stream turns k = .ended table) :
    ∃ i, EndsAt stackRoom clientPid connectedClients stream turns i ∧
      (∀ j < i, ¬ EndsAt stackRoom clientPid connectedClients stream turns j) ∧
      finish clientPid connectedClients (turns i) (message stackRoom stream turns i) =
        some table := by
  classical
  have hsome : ∃ i, EndsAt stackRoom clientPid connectedClients stream turns i := by
    by_contra hnone
    rw [after_looping k fun j _ hj => hnone ⟨j, hj⟩] at h
    contradiction
  have hfirst := Nat.find_spec hsome
  have hbefore : ∀ j < Nat.find hsome,
      ¬ EndsAt stackRoom clientPid connectedClients stream turns j :=
    fun j hj => Nat.find_min hsome hj
  obtain ⟨hne, hfinish⟩ := hfirst
  obtain ⟨table', htable'⟩ := Option.ne_none_iff_exists'.mp hfinish
  refine ⟨Nat.find hsome, ⟨hne, hfinish⟩, hbefore, ?_⟩
  have hk : Nat.find hsome < k := by
    by_contra hge
    rw [after_looping k fun j hj => hbefore j (by omega)] at h
    contradiction
  obtain ⟨d, rfl⟩ : ∃ d, k = Nat.find hsome + 1 + d := ⟨k - (Nat.find hsome + 1), by omega⟩
  rw [after_first hbefore hne htable' d] at h
  rw [htable', Loop.ended.inj h]

end Loop

def wholeTurn : Turn := ⟨4, 0, 4, [], ⟨fun _ => none, none, true⟩, true⟩

def ClientsLeave : Prop :=
  ∀ (stackRoom clientPid : ℕ) (connectedClients : List ℤ) (stream : Bytes) (turns : ℕ → Turn),
    0 < clientPid → Leaves stackRoom clientPid connectedClients stream turns

end Leaving
end AdvancedCProjects.Bibo
