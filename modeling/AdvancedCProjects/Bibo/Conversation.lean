import AdvancedCProjects.Base.Machine
import AdvancedCProjects.Bibo.Responses

/-!
# A client and its handler (biboClient.c:175-212, biboServer.c:314-371)

The command loop of a client and the loop of the process that was forked for
it, with the two FIFOs between them, while the server runs and the client is not
interrupted. A write of up to `PIPE_BUF` bytes comes as a whole, a longer one in
pieces. The parent does not close the descriptor of `send_notification` as long as
it runs, so the client finds no end of file when its handler ends. `killServer`
ends the parent as well (biboServer.c:279-295, 345), which stops the clients in
its table and leaves the others an end of file; the runs here do without it.
-/

namespace AdvancedCProjects.Bibo
open Base

def Outcome.written : Outcome → Bytes
  | .returns written => written
  | .exits written => written
  | .fault => []

/-- The handler ends after it has answered. -/
def Outcome.quits : Outcome → Bool
  | .exits written => written ≠ []
  | _ => false

namespace Conversation

/-- `quits` says that the loop has been left. -/
inductive ClientPc where
  | prompt
  | sendText (message : Bytes)
  | readLength (quits : Bool)
  | readText (quits : Bool) (len : ℤ)
  | closed
  | failed
  deriving DecidableEq

inductive HandlerPc where
  | readLength
  | readText (len : ℤ)
  | writeLength (quits : Bool) (written : Bytes)
  | writeText (quits : Bool) (text : Bytes)
  | exited
  | fault
  deriving DecidableEq

/-- `sent` are the messages the client has begun to write, `handled` those the
handler has read, each with what it found, `printed` what the client has shown. -/
structure State where
  client : ClientPc
  handler : HandlerPc
  requests : Bytes
  responses : Bytes
  sent : List Bytes
  handled : List (Env × Bytes)
  printed : List Bytes

/-- `typed` is what the buffer holds behind `fgets`: a line, or, at the end of the input,
the old message once more; `memory` is what a variable and a buffer hold
before they are read into. -/
inductive Action where
  | typed (line : Bytes)
  | sendText
  | readLength (memory : Responses.Memory)
  | readText (memory : Responses.Memory)
  | receive (memory : Responses.Memory)
  | handle (env : Env) (memory : Responses.Memory)
  | writeLength
  | writeText (n : ℕ)

def pipeBuf : ℕ := 4096

/-- How `write` hands over `count` bytes. -/
def Piece (count n : ℕ) : Prop := if count ≤ pipeBuf then n = count else 0 < n ∧ n ≤ count

instance (count n : ℕ) : Decidable (Piece count n) := inferInstanceAs (Decidable (ite _ _ _))

/-- One `read` of what is in the FIFO; it waits for the first byte. -/
def readNow (count : ℕ) (pending : Bytes) : Option (Bytes × Bytes) :=
  if count = 0 then some ([], pending) else Responses.readBuffered count pending.length pending

/-- The `read` of a length into a variable. -/
def readInt (old : ℤ) (pending : Bytes) : Option (ℤ × Bytes) :=
  (readNow 4 pending).map fun r => (decodeInt (r.1 ++ (encodeInt 4 old).drop r.1.length), r.2)

/-- The `read` of a text into a buffer, and the terminator behind it. -/
def readString (len : ℕ) (block pending : Bytes) : Option (Bytes × Bytes) :=
  (readNow len pending).map fun r => (cstr ((r.1 ++ block.drop r.1.length).take len), r.2)

/-- Where the handler goes with what a branch of the loop writes. -/
def HandlerPc.after : Outcome → HandlerPc
  | .returns written => if written = [] then .readLength else .writeLength false written
  | .exits written => if written = [] then .exited else .writeLength true written
  | .fault => .fault

def HandlerPc.idle (quits : Bool) : HandlerPc := if quits then .exited else .readLength

def quits (message : Bytes) : Bool := message = utf8 "quit"

/-- The line without its newline, up to a zero. -/
def trim (line : Bytes) : Bytes := cstr (line.takeWhile (· ≠ newline))

namespace State

/-- What one of the two processes does next. -/
def next (clientPid : ℕ) (s : State) : Action → Option State
  | .typed line =>
    if s.client = .prompt ∧ line ≠ [] ∧ line.length < 1024 then
      some { s with
        client := .sendText (trim line)
        requests := s.requests ++ encodeInt 4 (trim line).length
        sent := s.sent ++ [trim line] }
    else none
  | .sendText => match s.client with
    | .sendText message => some { s with
        client := .readLength (quits message)
        requests := s.requests ++ message }
    | _ => none
  | .readLength memory => match s.client with
    | .readLength quits => (readInt memory.len s.responses).map fun r =>
        { s with client := .readText quits r.1, responses := r.2 }
    | _ => none
  | .readText memory => match s.client with
    | .readText quits len =>
      -- `read` refuses a negative count, and `malloc` one that comes of `len + 1`
      if len < 0 ∨ wrapInt 4 (len + 1) < 0 then some { s with client := .failed }
      else (readString len.toNat memory.block s.responses).map fun r => { s with
        client := if quits then .closed else .prompt
        responses := r.2
        printed := s.printed ++ [r.1] }
    | _ => none
  | .receive memory => match s.handler with
    | .readLength => (readInt memory.len s.requests).map fun r =>
        { s with handler := .readText r.1, requests := r.2 }
    | _ => none
  | .handle env memory => match s.handler with
    | .readText len =>
      if len < 0 then some { s with handler := .fault }
      else (readString len.toNat memory.block s.requests).map fun r => { s with
        handler := .after (handleMessage env clientPid r.1)
        requests := r.2
        handled := s.handled ++ [(env, r.1)] }
    | _ => none
  | .writeLength => match s.handler with
    | .writeLength quits written => some { s with
        handler := .writeText quits (written.drop 4)
        responses := s.responses ++ written.take 4 }
    | _ => none
  | .writeText n => match s.handler with
    | .writeText quits text =>
      if Piece text.length n then some { s with
        handler := if n = text.length then .idle quits else .writeText quits (text.drop n)
        responses := s.responses ++ text.take n }
      else none
    | _ => none

end State

/-- The client has been admitted and both FIFOs are open. -/
structure State.Start (s : State) : Prop where
  client : s.client = .prompt
  handler : s.handler = .readLength
  requests : s.requests = []
  responses : s.responses = []
  sent : s.sent = []
  handled : s.handled = []
  printed : s.printed = []

def conversation (clientPid : ℕ) : Machine State Action where
  start := State.Start
  next := State.next clientPid

/-! ### What the handler answers -/

def outcome (clientPid : ℕ) (e : Env × Bytes) : Outcome := handleMessage e.1 clientPid e.2

/-- What the client prints of an answer. -/
def reply (o : Outcome) : Bytes := cstr (o.written.drop 4)

/-- The answer, if there is one, is a text that is written as a whole. -/
def Small (o : Outcome) : Prop :=
  o.written = [] ∨ ∃ text : Bytes, text.length ≤ pipeBuf ∧ o.written = frameBytes text

/-- A message that the handler takes in this step does not end the server, and its
answer is small. -/
def Ordinary (clientPid : ℕ) (s : State) (a : Action) : Prop :=
  ∀ t e, s.next clientPid a = some t → t.handled = s.handled ++ [e] →
    e.2 ≠ utf8 "killServer" ∧ Small (outcome clientPid e)

structure Framed (o : Outcome) (text : Bytes) : Prop where
  written : o.written = encodeInt 4 text.length ++ text
  short : text.length ≤ pipeBuf

section Answers
variable {o : Outcome} {text message : Bytes} {env : Env} {clientPid : ℕ}

theorem HandlerPc.after_of_ne (h : o.written ≠ []) :
    HandlerPc.after o = .writeLength o.quits o.written := by
  cases o with
  | returns written => simp_all [HandlerPc.after, Outcome.written, Outcome.quits]
  | exits written => simp_all [HandlerPc.after, Outcome.written, Outcome.quits]
  | fault => contradiction

theorem Small.framed (h : Small o) (hne : o.written ≠ []) : ∃ text, Framed o text := by
  rcases h with hnil | ⟨text, hshort, hwritten⟩
  · contradiction
  · refine ⟨text, ?_, hshort⟩
    have hwrap : wrapInt 4 text.length = text.length := wrapInt_length (by
      unfold pipeBuf at hshort
      omega)
    rw [hwritten, frameBytes]
    simp only [hwrap, Int.toNat_natCast, List.take_length]

theorem Framed.written_ne (h : Framed o text) : o.written ≠ [] := by
  intro hnil
  have hlength := congrArg List.length h.written
  simp only [hnil, List.length_nil, List.length_append, encodeInt_length] at hlength
  omega

theorem Framed.reply_eq (h : Framed o text) : reply o = cstr text := by
  rw [reply, h.written, List.drop_left' (encodeInt_length 4 _)]

theorem sprintf_quits (size : ℕ) (text : Bytes) : (sprintf size text answer).quits = false := by
  simp only [sprintf]
  split <;> rfl

theorem help_quits (message : Bytes) : (help message).quits = false := by
  simp only [help]
  split
  · exact sprintf_quits ..
  · split <;> exact sprintf_quits ..

theorem list_quits (env : Env) : (list env).quits = false := by
  simp only [list]
  split
  · rfl
  · split <;> rfl

theorem readF_quits (env : Env) (command : Bytes) : (readF env command).quits = false := by
  simp only [readF]
  split
  · exact sprintf_quits ..
  split
  · rfl
  split
  · rfl
  split
  · simp only [readLine]
    split
    · exact sprintf_quits ..
    · split
      · exact sprintf_quits ..
      · rfl
  · rfl

/-- Only `quit` is answered by a handler that ends. -/
theorem handleMessage_quits (hzero : (0 : Byte) ∉ message)
    (h : (handleMessage env clientPid message).written ≠ []) :
    (handleMessage env clientPid message).quits = quits message := by
  by_cases hquit : message = utf8 "quit"
  · subst hquit
    have heq : handleMessage env clientPid (utf8 "quit") =
        sprintf 100 (utf8 "Client " ++ decimal clientPid ++ utf8 " has disconnected.\n")
          fun text => .exits (frameBytes text) := rfl
    rw [heq] at h ⊢
    simp only [sprintf] at h ⊢
    split
    · next hfits =>
      rw [if_pos hfits] at h
      simpa [Outcome.quits, quits, Outcome.written] using h
    · next hfits =>
      rw [if_neg hfits] at h
      contradiction
  · have hfalse : quits message = false := decide_eq_false hquit
    rw [hfalse]
    simp only [handleMessage, cstr_self hzero, if_neg hquit]
    split
    · exact sprintf_quits ..
    split
    · exact help_quits ..
    split
    · exact list_quits ..
    split
    · rfl
    split
    · exact readF_quits ..
    split <;> exact sprintf_quits ..

/-- The empty message is answered. -/
theorem handleMessage_silent (h : (handleMessage env clientPid message).written = []) :
    message ≠ [] := by
  rintro rfl
  have hlength : (handleMessage env clientPid []).written.length = 32 := by
    have heq : handleMessage env clientPid [] =
        sprintf 100 (utf8 "Empty message sent to server") answer := rfl
    rw [heq]
    decide
  rw [h] at hlength
  contradiction

end Answers

/-! ### The reads -/

section Reads
variable {text rest block : Bytes} {old : ℤ} {len : ℕ}

theorem readInt_length (old : ℤ) (hlen : len < 2 ^ 31) (rest : Bytes) :
    readInt old (encodeInt 4 len ++ rest) = some ((len : ℤ), rest) := by
  have hne : encodeInt 4 (len : ℤ) ≠ [] := by
    intro hnil
    have hlength := encodeInt_length 4 (len : ℤ)
    rw [hnil] at hlength
    contradiction
  have hread : readNow 4 (encodeInt 4 len ++ rest) = some (encodeInt 4 (len : ℤ), rest) := by
    have hbuffered : Responses.readBuffered (encodeInt 4 (len : ℤ)).length
        (encodeInt 4 (len : ℤ) ++ rest).length (encodeInt 4 (len : ℤ) ++ rest) =
        some (encodeInt 4 (len : ℤ), rest) :=
      Responses.readBuffered_whole rest hne (by simp)
    rwa [encodeInt_length] at hbuffered
  rw [readInt, hread]
  simp only [Option.map_some, encodeInt_length, List.drop_of_length_le, le_refl, List.append_nil,
    decodeInt_encodeInt, wrapInt_length hlen]

theorem readString_whole (text block rest : Bytes) :
    readString text.length block (text ++ rest) = some (cstr text, rest) := by
  have hread : readNow text.length (text ++ rest) = some (text, rest) := by
    by_cases hnil : text = []
    · subst hnil
      rfl
    · have hpos := List.length_pos_iff.mpr hnil
      rw [readNow, if_neg (by omega)]
      exact Responses.readBuffered_whole rest hnil (by simp)
  rw [readString, hread]
  simp only [Option.map_some, List.take_left]

theorem readInt_nil (old : ℤ) : readInt old [] = none := rfl

theorem readString_nil (hlen : 0 < len) (block : Bytes) : readString len block [] = none := by
  rw [readString, readNow, if_neg (by omega)]
  simp [Responses.readBuffered, recv]

end Reads

/-! ### One exchange -/

/-- What has been written of the text of `message` where the client stands. -/
inductive Sends (message : Bytes) : ClientPc → Bytes → Prop where
  | begun : Sends message (.sendText message) []
  | done : Sends message (.readLength (quits message)) message

/-- Nothing is left to write. -/
def Rests (quits : Bool) (h : HandlerPc) : Prop := h = .idle quits ∨ h = .writeText quits []

/-- The handler has not answered and does not. -/
def Silent (h : HandlerPc) : Prop := h = .readLength ∨ h = .exited ∨ h = .fault

/-- Where the two are and what the FIFOs hold, with the messages that are not handled
and the answers that are not printed. An empty text is not waited for. -/
inductive Exchange : ClientPc → HandlerPc → Bytes → Bytes → List Bytes → List Outcome → Prop where
  | idle {h : HandlerPc} : Rests false h → Exchange .prompt h [] [] [] []
  | asked {m rest : Bytes} {c : ClientPc} {h : HandlerPc} : Rests false h → Sends m c rest →
    Exchange c h (encodeInt 4 m.length ++ rest) [] [m] []
  | reading {m rest : Bytes} {c : ClientPc} : Sends m c rest →
    Exchange c (.readText m.length) rest [] [m] []
  | answering {m text : Bytes} {c : ClientPc} {o : Outcome} : Sends m c m → Framed o text →
    Exchange c (.writeLength (quits m) o.written) [] [] [] [o]
  | writing {m text : Bytes} {c : ClientPc} {o : Outcome} : Sends m c m → Framed o text →
    Exchange c (.writeText (quits m) text) [] (encodeInt 4 text.length) [] [o]
  | answered {m text : Bytes} {c : ClientPc} {h : HandlerPc} {o : Outcome} : Sends m c m →
    Framed o text → Rests (quits m) h →
    Exchange c h [] (encodeInt 4 text.length ++ text) [] [o]
  | awaited {q : Bool} {text : Bytes} {o : Outcome} : Framed o text →
    Exchange (.readText q text.length) (.writeText q text) [] [] [] [o]
  | arriving {q : Bool} {text : Bytes} {h : HandlerPc} {o : Outcome} : Framed o text →
    Rests q h → Exchange (.readText q text.length) h [] text [] [o]
  | ended {h : HandlerPc} : Rests true h → Exchange .closed h [] [] [] []
  | silent {q : Bool} {h : HandlerPc} {o : Outcome} : o.written = [] → Silent h →
    Exchange (.readLength q) h [] [] [] [o]

section Moves
variable {c : ClientPc} {h : HandlerPc} {requests responses rest text m : Bytes}
  {unhandled : List Bytes} {pending : List Outcome} {q q' : Bool} {old len : ℤ} {n : ℕ}

theorem not_rests_readText : ¬ Rests q (.readText len) := by
  cases q <;> simp [Rests, HandlerPc.idle]

theorem not_rests_writeLength : ¬ Rests q (.writeLength q' text) := by
  cases q <;> simp [Rests, HandlerPc.idle]

theorem rests_writeText (h : Rests q (.writeText q' text)) : q' = q ∧ text = [] := by
  rcases h with hidle | hempty
  · cases q <;> contradiction
  · cases hempty
    exact ⟨rfl, rfl⟩

theorem Exchange.one (hx : Exchange c h requests responses unhandled pending) :
    unhandled.length + pending.length ≤ 1 := by
  cases hx <;> simp

theorem Exchange.prompt (hx : Exchange .prompt h requests responses unhandled pending) :
    Rests false h ∧ unhandled = [] ∧ pending = [] ∧ requests = [] ∧ responses = [] := by
  cases hx with
  | idle hrests => exact ⟨hrests, rfl, rfl, rfl, rfl⟩
  | asked _ hsends | reading hsends | answering hsends | writing hsends | answered hsends =>
    cases hsends

theorem Exchange.typed (hx : Exchange .prompt h requests responses unhandled pending) (m : Bytes) :
    unhandled = [] ∧ pending = [] ∧
      Exchange (.sendText m) h (requests ++ encodeInt 4 m.length) responses [m] [] := by
  obtain ⟨hrests, rfl, rfl, rfl, rfl⟩ := hx.prompt
  have hbegun : Sends m (.sendText m) [] := .begun
  have hasked := Exchange.asked hrests hbegun
  rw [List.append_nil] at hasked
  exact ⟨rfl, rfl, hasked⟩

theorem Exchange.sendText
    (hx : Exchange (.sendText m) h requests responses unhandled pending) :
    Exchange (.readLength (quits m)) h (requests ++ m) responses unhandled pending := by
  cases hx with
  | asked hrests hsends =>
    cases hsends
    rw [List.append_nil]
    exact .asked hrests .done
  | reading hsends =>
    cases hsends
    exact .reading .done
  | answering hsends hframed =>
    cases hsends
    exact .answering .done hframed
  | writing hsends hframed =>
    cases hsends
    exact .writing .done hframed
  | answered hsends hframed hrests =>
    cases hsends
    exact .answered .done hframed hrests
theorem Exchange.receive (hx : Exchange c .readLength requests responses unhandled pending)
    (hlines : ∀ m ∈ unhandled, m.length < 1024)
    (hread : readInt old requests = some (len, rest)) :
    Exchange c (.readText len) rest responses unhandled pending := by
  cases hx with
  | @asked m rest' _ _ _ hsends =>
    have hshort := hlines m (List.mem_singleton.mpr rfl)
    rw [readInt_length old (by omega) rest'] at hread
    cases hread
    exact .reading hsends
  | idle | answered | arriving | ended | silent => contradiction

/-- The handler reads the message as it was typed. -/
theorem Exchange.handle (hx : Exchange c (.readText len) requests responses unhandled pending)
    (block : Bytes) (hlines : ∀ m ∈ unhandled, (0 : Byte) ∉ m) :
    0 ≤ len ∧ ∀ text rest, readString len.toNat block requests = some (text, rest) →
      unhandled = [text] ∧ pending = [] ∧ Sends text c text ∧ rest = [] ∧ responses = [] := by
  cases hx with
  | @reading m _ _ hsends =>
    refine ⟨Int.natCast_nonneg _, fun text rest hread => ?_⟩
    have hzero := hlines m (List.mem_singleton.mpr rfl)
    rw [Int.toNat_natCast] at hread
    cases hsends with
    | begun =>
      by_cases hnil : m = []
      · subst hnil
        cases hread
        exact ⟨rfl, rfl, .begun, rfl, rfl⟩
      · rw [readString_nil (List.length_pos_iff.mpr hnil)] at hread
        contradiction
    | done =>
      have hwhole := readString_whole requests block []
      rw [List.append_nil, cstr_self hzero] at hwhole
      rw [hwhole] at hread
      cases hread
      exact ⟨rfl, rfl, .done, rfl, rfl⟩
  | idle hrests | asked hrests | answered _ _ hrests | arriving _ hrests | ended hrests =>
    exact absurd hrests not_rests_readText
  | silent _ hsilent => exact absurd hsilent (by simp [Silent])

theorem HandlerPc.after_silent {o : Outcome} (h : o.written = []) : Silent (.after o) := by
  cases o with
  | returns written => simp_all [HandlerPc.after, Outcome.written, Silent]
  | exits written => simp_all [HandlerPc.after, Outcome.written, Silent]
  | fault => exact .inr (.inr rfl)

/-- Where the handler stands once it has a message. -/
theorem Exchange.after {o : Outcome} (hsends : Sends m c m) (hsmall : Small o)
    (hquits : o.written ≠ [] → o.quits = quits m) (hempty : o.written = [] → m ≠ []) :
    Exchange c (.after o) [] [] [] [o] := by
  by_cases hnil : o.written = []
  · cases hsends with
    | begun => exact absurd rfl (hempty hnil)
    | done => exact .silent hnil (HandlerPc.after_silent hnil)
  · obtain ⟨text, hframed⟩ := hsmall.framed hnil
    rw [HandlerPc.after_of_ne hnil, hquits hnil]
    exact .answering hsends hframed

theorem Exchange.writeLength {written : Bytes}
    (hx : Exchange c (.writeLength q written) requests responses unhandled pending) :
    Exchange c (.writeText q (written.drop 4)) requests (responses ++ written.take 4)
      unhandled pending := by
  cases hx with
  | answering hsends hframed =>
    rw [hframed.written, List.drop_left' (encodeInt_length 4 _),
      List.take_left' (encodeInt_length 4 _), List.nil_append]
    exact .writing hsends hframed
  | idle hrests | asked hrests | answered _ _ hrests | arriving _ hrests | ended hrests =>
    exact absurd hrests not_rests_writeLength
  | silent _ hsilent => exact absurd hsilent (by simp [Silent])

theorem Exchange.writeText
    (hx : Exchange c (.writeText q text) requests responses unhandled pending)
    (hpiece : Piece text.length n) :
    n = text.length ∧
      Exchange c (.idle q) requests (responses ++ text) unhandled pending := by
  have hwhole (hshort : text.length ≤ pipeBuf) : n = text.length := by
    rwa [Piece, if_pos hshort] at hpiece
  cases hx with
  | idle hrests =>
    obtain ⟨rfl, rfl⟩ := rests_writeText hrests
    exact ⟨hwhole (Nat.zero_le _), .idle (.inl rfl)⟩
  | asked hrests hsends =>
    obtain ⟨rfl, rfl⟩ := rests_writeText hrests
    exact ⟨hwhole (Nat.zero_le _), .asked (.inl rfl) hsends⟩
  | writing hsends hframed => exact ⟨hwhole hframed.short, .answered hsends hframed (.inl rfl)⟩
  | answered hsends hframed hrests =>
    obtain ⟨rfl, rfl⟩ := rests_writeText hrests
    rw [List.append_nil]
    exact ⟨hwhole (Nat.zero_le _), .answered hsends hframed (.inl rfl)⟩
  | awaited hframed => exact ⟨hwhole hframed.short, .arriving hframed (.inl rfl)⟩
  | arriving hframed hrests =>
    obtain ⟨rfl, rfl⟩ := rests_writeText hrests
    rw [List.append_nil]
    exact ⟨hwhole (Nat.zero_le _), .arriving hframed (.inl rfl)⟩
  | ended hrests =>
    obtain ⟨rfl, rfl⟩ := rests_writeText hrests
    exact ⟨hwhole (Nat.zero_le _), .ended (.inl rfl)⟩
  | silent _ hsilent => exact absurd hsilent (by simp [Silent])

theorem Exchange.readLength
    (hx : Exchange (.readLength q) h requests responses unhandled pending)
    (hread : readInt old responses = some (len, rest)) :
    Exchange (.readText q len) h requests rest unhandled pending := by
  cases hx with
  | @writing m text _ _ hsends hframed =>
    have hlength := readInt_length old (hframed.short.trans_lt (by norm_num [pipeBuf])) []
    rw [List.append_nil] at hlength
    rw [hlength] at hread
    cases hread
    cases hsends
    exact .awaited hframed
  | @answered m text _ _ _ hsends hframed hrests =>
    rw [readInt_length old (hframed.short.trans_lt (by norm_num [pipeBuf])) text] at hread
    cases hread
    cases hsends
    exact .arriving hframed hrests
  | asked | reading | answering | silent => contradiction

/-- The client prints the answer. -/
theorem Exchange.readText
    (hx : Exchange (.readText q len) h requests responses unhandled pending) (block : Bytes) :
    (0 ≤ len ∧ 0 ≤ wrapInt 4 (len + 1)) ∧
      ∀ text rest, readString len.toNat block responses = some (text, rest) →
        ∃ o, pending = [o] ∧ text = reply o ∧ o.written ≠ [] ∧
          Exchange (if q then .closed else .prompt) h requests rest unhandled [] := by
  have hlength {o : Outcome} {text : Bytes} (hframed : Framed o text) :
      (0 : ℤ) ≤ text.length ∧ 0 ≤ wrapInt 4 ((text.length : ℤ) + 1) := by
    have hwrap : wrapInt 4 ((text.length + 1 : ℕ) : ℤ) = (text.length + 1 : ℕ) :=
      wrapInt_length (Nat.succ_lt_of_lt_pred (hframed.short.trans_lt (by norm_num [pipeBuf])))
    rw [Nat.cast_add_one] at hwrap
    rw [hwrap]
    omega
  have hback {h : HandlerPc} (hrests : Rests q h) :
      Exchange (if q then .closed else .prompt) h [] [] [] [] := by
    cases q with
    | false => exact .idle hrests
    | true => exact .ended hrests
  cases hx with
  | @awaited _ text o hframed =>
    refine ⟨hlength hframed, fun read rest hread => ?_⟩
    rw [Int.toNat_natCast] at hread
    -- only an empty text is read before it is written
    by_cases hnil : text = []
    · subst hnil
      cases hread
      exact ⟨o, rfl, hframed.reply_eq.symm, hframed.written_ne, hback (.inr rfl)⟩
    · rw [readString_nil (List.length_pos_iff.mpr hnil)] at hread
      contradiction
  | @arriving _ _ _ o hframed hrests =>
    refine ⟨hlength hframed, fun read rest hread => ?_⟩
    have hwhole := readString_whole responses block []
    rw [List.append_nil] at hwhole
    rw [Int.toNat_natCast, hwhole] at hread
    cases hread
    exact ⟨o, rfl, hframed.reply_eq.symm, hframed.written_ne, hback hrests⟩
  | asked _ hsends | reading hsends | answering hsends | writing hsends | answered hsends =>
    cases hsends

end Moves

/-- What the client makes of a line. -/
structure Line (m : Bytes) : Prop where
  short : m.length < 1024
  string : (0 : Byte) ∉ m
  line : newline ∉ m

/-- The two are in one exchange, and all the others are complete. -/
structure InStep (clientPid : ℕ) (s : State) : Prop where
  lines : ∀ m ∈ s.sent, Line m
  ordinary : ∀ e ∈ s.handled, e.2 ≠ utf8 "killServer" ∧ Small (outcome clientPid e)
  exchange : ∃ unhandled complete pending,
    Exchange s.client s.handler s.requests s.responses unhandled pending ∧
    s.sent = s.handled.map Prod.snd ++ unhandled ∧
    s.handled.map (outcome clientPid) = complete ++ pending ∧
    s.printed = complete.map reply ∧ ∀ o ∈ complete, o.written ≠ []

section Steps
variable {clientPid : ℕ} {s t : State} {a : Action}

theorem trim_line {line : Bytes} (h : line.length < 1024) : Line (trim line) where
  short := by
    have htrim : (trim line).length ≤ line.length :=
      (List.takeWhile_prefix _).length_le.trans (List.takeWhile_prefix _).length_le
    exact htrim.trans_lt h
  string := zero_not_mem_cstr _
  line hmem := by
    have hin : newline ∈ line.takeWhile (· ≠ newline) := (List.takeWhile_prefix _).subset hmem
    have hne := List.mem_takeWhile_imp hin
    simp at hne

/-- A step that neither begins nor ends anything. -/
theorem InStep.onward (h : InStep clientPid s)
    (hx : ∀ unhandled pending, (∀ m ∈ unhandled, Line m) →
      Exchange s.client s.handler s.requests s.responses unhandled pending →
      Exchange t.client t.handler t.requests t.responses unhandled pending)
    (hsent : t.sent = s.sent) (hhandled : t.handled = s.handled)
    (hprinted : t.printed = s.printed) : InStep clientPid t := by
  obtain ⟨hlines, hordinary, unhandled, complete, pending, hexchange, hsplit, hrest⟩ := h
  have hsub (m : Bytes) (hm : m ∈ unhandled) : m ∈ s.sent := by
    rw [hsplit]
    exact List.mem_append_right _ hm
  refine ⟨hsent ▸ hlines, hhandled ▸ hordinary, unhandled, complete, pending, ?_, ?_, ?_⟩
  · exact hx _ _ (fun m hm => hlines m (hsub m hm)) hexchange
  · rw [hsent, hhandled, hsplit]
  · rw [hhandled, hprinted]
    exact hrest

theorem InStep.typed {line : Bytes} (h : InStep clientPid s)
    (hn : s.next clientPid (.typed line) = some t) : InStep clientPid t := by
  obtain ⟨hlines, hordinary, unhandled, complete, pending, hx, hsent, hhandled, hprinted⟩ := h
  simp only [State.next] at hn
  split at hn
  · next hline =>
    obtain ⟨hclient, -, hlength⟩ := hline
    cases hn
    rw [hclient] at hx
    obtain ⟨rfl, rfl, hasked⟩ := hx.typed (trim line)
    refine ⟨?_, hordinary, [trim line], complete, [], hasked, ?_, hhandled, hprinted⟩
    · intro m hm
      rcases List.mem_append.mp hm with hold | hnew
      · exact hlines m hold
      · exact List.mem_singleton.mp hnew ▸ trim_line hlength
    · rw [hsent, List.append_nil]
  · contradiction

/-- The handler takes a message. -/
theorem InStep.handle {env : Env} {memory : Responses.Memory} (h : InStep clientPid s)
    (hstep : Ordinary clientPid s (.handle env memory))
    (hn : s.next clientPid (.handle env memory) = some t) : InStep clientPid t := by
  have htaken := hstep t
  obtain ⟨hlines, hordinary, unhandled, complete, pending, hx, hsent, hhandled, hprinted⟩ := h
  have hsub (m : Bytes) (hm : m ∈ unhandled) : (0 : Byte) ∉ m := by
    refine (hlines m ?_).string
    rw [hsent]
    exact List.mem_append_right _ hm
  have hnext := hn
  simp only [State.next] at hn
  split at hn
  · next len hpc =>
    rw [hpc] at hx
    obtain ⟨hlen, hread⟩ := hx.handle memory.block hsub
    rw [if_neg (by omega)] at hn
    obtain ⟨⟨text, rest⟩, hr, rfl⟩ := Option.map_eq_some_iff.mp hn
    obtain ⟨rfl, rfl, hsends, rfl, hresponses⟩ := hread text rest hr
    obtain ⟨hkill, hsmall⟩ := htaken (env, text) hnext rfl
    have hx : Exchange s.client (.after (outcome clientPid (env, text))) [] [] []
        [outcome clientPid (env, text)] :=
      .after hsends hsmall (handleMessage_quits (hsub text (List.mem_singleton.mpr rfl)))
        handleMessage_silent
    refine ⟨hlines, ?_, [], complete, [outcome clientPid (env, text)], hresponses ▸ hx, ?_, ?_,
      hprinted⟩
    · intro e he
      rcases List.mem_append.mp he with hold | hnew
      · exact hordinary e hold
      · exact List.mem_singleton.mp hnew ▸ ⟨hkill, hsmall⟩
    · rw [List.append_nil, List.map_append, hsent]
      rfl
    · rw [List.map_append, hhandled, List.append_nil]
      rfl
  · contradiction

/-- The client prints an answer. -/
theorem InStep.readText {memory : Responses.Memory} (h : InStep clientPid s)
    (hn : s.next clientPid (.readText memory) = some t) : InStep clientPid t := by
  obtain ⟨hlines, hordinary, unhandled, complete, pending, hx, hsent, hhandled, hprinted,
    hcomplete⟩ := h
  simp only [State.next] at hn
  split at hn
  · next q len hpc =>
    rw [hpc] at hx
    obtain ⟨⟨hlen, hblock⟩, hread⟩ := hx.readText memory.block
    rw [if_neg (by omega)] at hn
    obtain ⟨⟨text, rest⟩, hr, rfl⟩ := Option.map_eq_some_iff.mp hn
    obtain ⟨o, rfl, rfl, hwritten, hdone⟩ := hread text rest hr
    refine ⟨hlines, hordinary, unhandled, complete ++ [o], [], hdone, hsent, ?_, ?_, ?_⟩
    · rw [List.append_nil]
      exact hhandled
    · rw [List.map_append, hprinted]
      rfl
    · intro o' ho'
      rcases List.mem_append.mp ho' with hold | hnew
      · exact hcomplete o' hold
      · exact List.mem_singleton.mp hnew ▸ hwritten
  · contradiction

theorem InStep.step (h : InStep clientPid s) (hstep : Ordinary clientPid s a)
    (hn : s.next clientPid a = some t) : InStep clientPid t := by
  cases a with
  | typed line => exact h.typed hn
  | handle env memory => exact h.handle hstep hn
  | readText memory => exact h.readText hn
  | sendText =>
    simp only [State.next] at hn
    split at hn
    · next message hpc =>
      cases hn
      refine h.onward (fun unhandled pending _ hx => ?_) rfl rfl rfl
      rw [hpc] at hx
      exact hx.sendText
    · contradiction
  | readLength memory =>
    simp only [State.next] at hn
    split at hn
    · next q hpc =>
      obtain ⟨⟨len, rest⟩, hread, rfl⟩ := Option.map_eq_some_iff.mp hn
      refine h.onward (fun unhandled pending _ hx => ?_) rfl rfl rfl
      rw [hpc] at hx
      exact hx.readLength hread
    · contradiction
  | receive memory =>
    simp only [State.next] at hn
    split at hn
    · next hpc =>
      obtain ⟨⟨len, rest⟩, hread, rfl⟩ := Option.map_eq_some_iff.mp hn
      refine h.onward (fun unhandled pending hlines hx => ?_) rfl rfl rfl
      rw [hpc] at hx
      exact hx.receive (fun m hm => (hlines m hm).short) hread
    · contradiction
  | writeLength =>
    simp only [State.next] at hn
    split at hn
    · next q written hpc =>
      cases hn
      refine h.onward (fun unhandled pending _ hx => ?_) rfl rfl rfl
      rw [hpc] at hx
      exact hx.writeLength
    · contradiction
  | writeText n =>
    simp only [State.next] at hn
    split at hn
    · next q text hpc =>
      split at hn
      · next hpiece =>
        cases hn
        refine h.onward (fun unhandled pending _ hx => ?_) rfl rfl rfl
        rw [hpc] at hx
        obtain ⟨rfl, hx⟩ := hx.writeText hpiece
        simpa only [if_true, List.take_length] using hx
      · contradiction
    · contradiction

end Steps

theorem conversation_inductive (clientPid : ℕ) :
    (conversation clientPid).Inductive (Ordinary clientPid) (InStep clientPid) where
  base s hs := by
    refine ⟨by simp [hs.sent], by simp [hs.handled], [], [], [], ?_, ?_, ?_, ?_, by simp⟩
    · rw [hs.client, hs.handler, hs.requests, hs.responses]
      exact .idle (.inl rfl)
    · rw [hs.sent, hs.handled]
      rfl
    · rw [hs.handled]
      rfl
    · rw [hs.printed]
      rfl
  keep _ _ _ h hstep hn := h.step hstep hn

/-! ### A run of one exchange -/

def Action.handles : Action → Bool
  | .handle _ _ => true
  | _ => false

theorem ordinary_of_other {clientPid : ℕ} {s : State} {a : Action} (h : a.handles = false) :
    Ordinary clientPid s a := by
  intro t e hn happend
  have hsame : t.handled = s.handled := by
    cases a <;> simp only [State.next] at hn <;> repeat' split at hn
    all_goals first
      | contradiction
      | (cases hn; rfl)
      | (obtain ⟨r, -, rfl⟩ := Option.map_eq_some_iff.mp hn; rfl)
  rw [hsame] at happend
  simp at happend

theorem reaches_along {clientPid : ℕ} {s t : State}
    (h : (conversation clientPid).Reaches (Ordinary clientPid) s) (as : List Action)
    (hother : ∀ a ∈ as, a.handles = false) (hrun : (conversation clientPid).run s as = some t) :
    (conversation clientPid).Reaches (Ordinary clientPid) t := by
  induction as generalizing s with
  | nil =>
    cases hrun
    exact h
  | cons a as ih =>
    obtain ⟨u, hu, hrest⟩ := Option.bind_eq_some_iff.mp hrun
    exact ih (h.step (ordinary_of_other (hother a List.mem_cons_self)) hu)
      (fun b hb => hother b (List.mem_cons_of_mem a hb)) hrest

/-- The two before the first message. -/
def begun : State := ⟨.prompt, .readLength, [], [], [], [], []⟩

/-- The handler has the length of a message that has been written. -/
def read (message : Bytes) : State :=
  ⟨.readLength (quits message), .readText message.length, message, [], [message], [], []⟩

def noFiles : Env := ⟨fun _ => none, none, true⟩

/-- The handler has found what it answers. -/
def answered (message : Bytes) : State :=
  ⟨.readLength (quits message), .after (outcome 11 (noFiles, message)), [], [], [message],
    [(noFiles, message)], []⟩

theorem answered_reaches {message : Bytes}
    (hread : (conversation 11).run begun
      [.typed (message ++ [newline]), .sendText, .receive ⟨0, []⟩] = some (read message))
    (hhandle : (conversation 11).next (read message) (.handle noFiles ⟨0, []⟩) =
      some (answered message))
    (hkill : message ≠ utf8 "killServer") (hsmall : Small (outcome 11 (noFiles, message))) :
    (conversation 11).Reaches (Ordinary 11) (answered message) := by
  have hbegun : (conversation 11).Reaches (Ordinary 11) begun :=
    .start ⟨rfl, rfl, rfl, rfl, rfl, rfl, rfl⟩
  have hr := reaches_along hbegun _ (by simp [Action.handles]) hread
  refine hr.step (fun t e hn happend => ?_) hhandle
  have hsame : t = answered message := Option.some.inj (hn.symm.trans hhandle)
  subst hsame
  simp only [read, answered, List.nil_append, List.cons.injEq, and_true] at happend
  exact happend ▸ ⟨hkill, hsmall⟩

/-- Whatever the client prints is the answer to its messages, one for each and in their order,
and at its prompt it has all of them: at most one message or one answer is on the way. -/
theorem printed_in_order {clientPid : ℕ} {s : State}
    (hr : (conversation clientPid).Reaches (Ordinary clientPid) s) :
    ∃ unhandled pending, s.sent = s.handled.map Prod.snd ++ unhandled ∧
      s.handled.map (fun e => reply (outcome clientPid e)) = s.printed ++ pending ∧
      unhandled.length + pending.length ≤ 1 ∧
      (s.client = .prompt →
        unhandled = [] ∧ pending = [] ∧ s.requests = [] ∧ s.responses = []) := by
  obtain ⟨-, -, unhandled, complete, pending, hx, hsent, hhandled, hprinted, -⟩ :=
    (conversation_inductive clientPid).holds hr
  refine ⟨unhandled, pending.map reply, hsent, ?_, ?_, fun hprompt => ?_⟩
  · have hreplies := congrArg (List.map reply) hhandled
    rwa [List.map_map, List.map_append, ← hprinted] at hreplies
  · rw [List.length_map]
    exact hx.one
  · rw [hprompt] at hx
    obtain ⟨-, hunhandled, rfl, hrequests, hresponses⟩ := hx.prompt
    exact ⟨hunhandled, rfl, hrequests, hresponses⟩

theorem notCommand_printed :
    ∃ s, (conversation 11).Reaches (Ordinary 11) s ∧ s.client = .prompt ∧
      s.printed = [utf8 "not-command"] ∧
      s.printed = s.handled.map fun e => reply (outcome 11 e) := by
  have hframe : outcome 11 (noFiles, utf8 "x") = .returns (frameBytes (utf8 "not-command")) := by
    decide
  have hsmall : Small (outcome 11 (noFiles, utf8 "x")) :=
    .inr ⟨utf8 "not-command", by decide, by rw [hframe]; rfl⟩
  have hanswer := answered_reaches rfl rfl (by decide) hsmall
  have hr := reaches_along hanswer
    [.writeLength, .writeText 11, .readLength ⟨0, []⟩, .readText ⟨0, []⟩]
    (by simp [Action.handles]) rfl
  refine ⟨_, hr, rfl, rfl, ?_⟩
  obtain ⟨unhandled, pending, -, hprinted, -, hprompt⟩ := printed_in_order hr
  obtain ⟨-, rfl, -, -⟩ := hprompt rfl
  rw [hprinted, List.append_nil]

/-! ### Waiting -/

section Waiting
variable {clientPid : ℕ} {s t : State} {env : Env} {m : Bytes} {c : ClientPc} {h : HandlerPc}
  {requests responses : Bytes} {unhandled : List Bytes} {pending : List Outcome}

theorem writeText_goes_on {q : Bool} {text : Bytes} (hh : s.handler = .writeText q text) :
    ∃ a, s.next clientPid a ≠ none := by
  have hpiece : ∃ n, Piece text.length n := by
    by_cases hshort : text.length ≤ pipeBuf
    · exact ⟨text.length, by rw [Piece, if_pos hshort]⟩
    · refine ⟨1, ?_⟩
      rw [Piece, if_neg hshort]
      omega
  obtain ⟨n, hn⟩ := hpiece
  refine ⟨.writeText n, ?_⟩
  simp [State.next, hh, hn]

theorem sendText_goes_on (hc : s.client = .sendText m) :
    ∃ a, s.next clientPid a ≠ none := by
  refine ⟨.sendText, ?_⟩
  simp [State.next, hc]

/-- Unless the client has been left without an answer one of the two can go on. -/
theorem Exchange.goes_on (clientPid : ℕ) (hx : Exchange c h requests responses unhandled pending)
    (hc : s.client = c) (hh : s.handler = h) (hrequests : s.requests = requests)
    (hresponses : s.responses = responses) (hlines : ∀ m ∈ unhandled, Line m) :
    c = .closed ∨ (∃ a, s.next clientPid a ≠ none) ∨ ∃ o, pending = [o] ∧ o.written = [] := by
  cases hx with
  | idle hrests =>
    refine .inr (.inl ⟨.typed [0], ?_⟩)
    simp [State.next, hc]
  | @asked m rest _ _ hrests hsends =>
    right; left
    rcases hrests with rfl | rfl
    · have hshort := (hlines m (List.mem_singleton.mpr rfl)).short
      have hread := readInt_length 0 (show m.length < 2 ^ 31 by omega) rest
      refine ⟨.receive ⟨0, []⟩, ?_⟩
      simp [State.next, hh, HandlerPc.idle, hrequests, hread]
    · exact writeText_goes_on hh
  | @reading m _ _ hsends =>
    right; left
    cases hsends with
    | begun => exact sendText_goes_on hc
    | done =>
      have hwhole := readString_whole requests [] []
      rw [List.append_nil] at hwhole
      refine ⟨.handle ⟨fun _ => none, none, true⟩ ⟨0, []⟩, ?_⟩
      simp only [State.next, hh, hrequests, Int.toNat_natCast, hwhole, Option.map_some]
      split <;> simp
  | answering =>
    refine .inr (.inl ⟨.writeLength, ?_⟩)
    simp [State.next, hh]
  | writing => exact .inr (.inl (writeText_goes_on hh))
  | @answered m text _ _ _ hsends hframed =>
    right; left
    cases hsends with
    | begun => exact sendText_goes_on hc
    | done =>
      have hshort : text.length < 2 ^ 31 := hframed.short.trans_lt (by norm_num [pipeBuf])
      have hread := readInt_length 0 hshort text
      refine ⟨.readLength ⟨0, []⟩, ?_⟩
      simp [State.next, hc, hresponses, hread]
  | awaited => exact .inr (.inl (writeText_goes_on hh))
  | arriving =>
    have hwhole := readString_whole responses [] []
    rw [List.append_nil] at hwhole
    refine .inr (.inl ⟨.readText ⟨0, []⟩, ?_⟩)
    simp only [State.next, hc, hresponses, Int.toNat_natCast, hwhole, Option.map_some]
    split <;> simp
  | ended => exact .inl rfl
  | silent hnil => exact .inr (.inr ⟨_, rfl, hnil⟩)

/-- A client that has not been answered waits for ever. -/
theorem Exchange.waits (clientPid : ℕ) {o : Outcome}
    (hx : Exchange c h requests responses unhandled [o]) (hnil : o.written = [])
    (hc : s.client = c) (hh : s.handler = h) (hrequests : s.requests = requests)
    (hresponses : s.responses = responses) (a : Action) :
    s.next clientPid a = none ∧ c ≠ .closed := by
  cases hx with
  | silent _ hsilent =>
    refine ⟨?_, by simp⟩
    rcases hsilent with rfl | rfl | rfl <;>
      cases a <;> simp [State.next, hc, hh, hrequests, hresponses, readInt_nil]
  | answering _ hframed | writing _ hframed | answered _ hframed | awaited hframed
  | arriving hframed => exact absurd hnil hframed.written_ne

/-- The last message that was handled has no answer. -/
def State.Unanswered (clientPid : ℕ) (s : State) : Prop :=
  ∃ e, s.handled.getLast? = some e ∧ (outcome clientPid e).written = []

theorem InStep.stuck_iff (hs : InStep clientPid s) :
    (∀ a, s.next clientPid a = none) ∧ s.client ≠ .closed ↔ s.Unanswered clientPid := by
  obtain ⟨hlines, -, unhandled, complete, pending, hx, hsent, hhandled, -, hcomplete⟩ := hs
  have hsub (m : Bytes) (hm : m ∈ unhandled) : Line m := by
    refine hlines m ?_
    rw [hsent]
    exact List.mem_append_right _ hm
  have hlast := congrArg List.getLast? hhandled
  rw [List.getLast?_map] at hlast
  constructor
  · intro hstuck
    obtain ⟨hnone, hopen⟩ := hstuck
    rcases hx.goes_on clientPid rfl rfl rfl rfl hsub with hclosed | ⟨a, ha⟩ | ⟨o, rfl, hnil⟩
    · exact absurd hclosed hopen
    · exact absurd (hnone a) ha
    · rw [List.getLast?_concat] at hlast
      obtain ⟨e, he, heq⟩ := Option.map_eq_some_iff.mp hlast
      exact ⟨e, he, heq ▸ hnil⟩
  · intro hunanswered
    obtain ⟨e, he, hnil⟩ := hunanswered
    rw [he, Option.map_some] at hlast
    cases pending with
    | nil =>
      have hmem : outcome clientPid e ∈ complete := by
        rw [List.append_nil] at hlast
        exact List.mem_of_getLast? hlast.symm
      exact absurd hnil (hcomplete _ hmem)
    | cons o rest =>
      have hone := hx.one
      obtain rfl : rest = [] := List.eq_nil_of_length_eq_zero (by
        rw [List.length_cons] at hone
        omega)
      rw [List.getLast?_concat] at hlast
      cases hlast
      have hwaits := hx.waits clientPid hnil rfl rfl rfl rfl
      exact ⟨fun a => (hwaits a).1, (hwaits .sendText).2⟩

/-! ### The requests that are not answered -/

theorem quit_written (hpid : clientPid < 2 ^ 31) :
    (handleMessage env clientPid (utf8 "quit")).written ≠ [] := by
  have heq : handleMessage env clientPid (utf8 "quit") =
      sprintf 100 (utf8 "Client " ++ decimal clientPid ++ utf8 " has disconnected.\n")
        fun text => .exits (frameBytes text) := rfl
  have hdecimal := decimal_length hpid
  have hfits :
      (utf8 "Client " ++ decimal clientPid ++ utf8 " has disconnected.\n").length < 100 := by
    have hbefore : (utf8 "Client ").length = 7 := by decide
    have hbehind : (utf8 " has disconnected.\n").length = 19 := by decide
    simp only [List.length_append]
    omega
  rw [heq, sprintf, if_pos hfits]
  intro hnil
  have hlength := congrArg List.length hnil
  simp only [Outcome.written, frameBytes, List.length_append, encodeInt_length,
    List.length_nil] at hlength
  omega

theorem oneFrame_written {o : Outcome} (h : OneFrame o) : o.written ≠ [] := by
  obtain ⟨body, -, rfl⟩ := h
  intro hnil
  have hlength := congrArg List.length hnil
  simp only [Outcome.written, List.length_append, encodeInt_length, List.length_nil] at hlength
  omega

theorem Framed.oneFrame {o : Outcome} {text : Bytes} (h : Framed o text)
    (hquits : o.quits = false) : OneFrame o := by
  refine ⟨text, h.short.trans_lt (by norm_num [pipeBuf]), ?_⟩
  cases o with
  | returns written => rw [← h.written, Outcome.written]
  | exits written =>
    have hnil : written = [] := by simpa [Outcome.quits] using hquits
    exact absurd hnil h.written_ne
  | fault => exact absurd rfl h.written_ne

/-- Which requests are not answered. -/
theorem written_nil_iff (hpid : clientPid < 2 ^ 31) (hline : Line m)
    (hkill : m ≠ utf8 "killServer") (hsmall : Small (handleMessage env clientPid m)) :
    (handleMessage env clientPid m).written = [] ↔ m ≠ utf8 "quit" ∧ ¬ Answered env m := by
  by_cases hquit : m = utf8 "quit"
  · subst hquit
    exact iff_of_false (quit_written hpid) fun h => h.1 rfl
  have hanswered := handleMessage_oneFrame env clientPid
    ⟨hline.short, hline.string, hline.line, hquit, hkill⟩
  rw [← hanswered]
  constructor
  · intro hnil
    exact ⟨hquit, fun hone => oneFrame_written hone hnil⟩
  · intro hnot
    by_contra hne
    obtain ⟨text, hframed⟩ := hsmall.framed hne
    have hquits := handleMessage_quits hline.string hne
    rw [quits, decide_eq_false hquit] at hquits
    exact hnot.2 (hframed.oneFrame hquits)

theorem InStep.unanswered_iff (hs : InStep clientPid s) (hpid : clientPid < 2 ^ 31) :
    s.Unanswered clientPid ↔ ∃ env m, s.handled.getLast? = some (env, m) ∧
      m ≠ utf8 "quit" ∧ ¬ Answered env m := by
  have hwritten (env : Env) (m : Bytes) (he : s.handled.getLast? = some (env, m)) :
      (outcome clientPid (env, m)).written = [] ↔ m ≠ utf8 "quit" ∧ ¬ Answered env m := by
    have hmem : (env, m) ∈ s.handled := List.mem_of_getLast? he
    obtain ⟨hlines, hordinary, unhandled, -, -, -, hsent, -⟩ := hs
    obtain ⟨hkill, hsmall⟩ := hordinary _ hmem
    refine written_nil_iff hpid (hlines m ?_) hkill hsmall
    rw [hsent]
    exact List.mem_append_left _ (List.mem_map_of_mem (f := Prod.snd) hmem)
  constructor
  · intro h
    obtain ⟨⟨env, m⟩, he, hnil⟩ := h
    exact ⟨env, m, he, (hwritten env m he).mp hnil⟩
  · intro h
    obtain ⟨env, m, he, hrequest⟩ := h
    exact ⟨(env, m), he, (hwritten env m he).mpr hrequest⟩

end Waiting

/-! ### How long an exchange takes -/

/-- How many steps the client has before it at most. -/
def ClientPc.rank : ClientPc → ℕ
  | .sendText _ => 3
  | .readLength _ => 2
  | .readText _ _ => 1
  | .prompt | .closed | .failed => 0

def HandlerPc.rank (pending : Bool) : HandlerPc → ℕ
  | .readLength => if pending then 4 else 0
  | .readText _ => 3
  | .writeLength _ _ => 2
  | .writeText _ _ => if pending then 5 else 1
  | .exited | .fault => 0

def State.rank (s : State) : ℕ := s.client.rank + s.handler.rank (s.requests ≠ [])

section Rank
variable {clientPid : ℕ} {s t : State} {a : Action} {c : ClientPc} {h : HandlerPc}
  {requests responses m : Bytes} {unhandled : List Bytes} {pending : List Outcome}

theorem State.rank_le (s : State) : s.rank ≤ 8 := by
  have hclient : s.client.rank ≤ 3 := by
    cases s.client <;> simp [ClientPc.rank]
  have hhandler : s.handler.rank (s.requests ≠ []) ≤ 5 := by
    cases s.handler <;> simp only [HandlerPc.rank] <;> (try split) <;> omega
  unfold State.rank
  omega

theorem Exchange.sendText_rank
    (hx : Exchange (.sendText m) h requests responses unhandled pending) :
    h.rank (requests ++ m ≠ []) = h.rank (requests ≠ []) := by
  cases hx with
  | @asked m' _ _ _ _ hsends =>
    have hne : encodeInt 4 (m'.length : ℤ) ≠ [] := by
      intro hnil
      have hlength := encodeInt_length 4 (m'.length : ℤ)
      rw [hnil] at hlength
      contradiction
    simp [hne]
  | reading => rfl
  | answering hsends | writing hsends | answered hsends =>
    cases hsends
    rfl

theorem Exchange.writeLength_requests {q : Bool} {written : Bytes}
    (hx : Exchange c (.writeLength q written) requests responses unhandled pending) :
    requests = [] := by
  cases hx with
  | answering => rfl
  | idle hrests | asked hrests | answered _ _ hrests | arriving _ hrests | ended hrests =>
    exact absurd hrests not_rests_writeLength
  | silent => rfl

theorem HandlerPc.after_rank (o : Outcome) : (HandlerPc.after o).rank false ≤ 2 := by
  cases o with
  | returns written | exits written =>
    simp only [HandlerPc.after]
    split <;> simp [HandlerPc.rank]
  | fault => simp [HandlerPc.after, HandlerPc.rank]

theorem HandlerPc.idle_rank (q pending : Bool) (text : Bytes) :
    (HandlerPc.idle q).rank pending < (HandlerPc.writeText q text).rank pending := by
  cases q <;> cases pending <;> simp [HandlerPc.idle, HandlerPc.rank]

theorem readInt_pending {old len : ℤ} {rest : Bytes} (h : readInt old requests = some (len, rest)) :
    requests ≠ [] := by
  rintro rfl
  contradiction

/-- Whatever the two do, what is left to do gets less. -/
theorem InStep.rank_lt (hs : InStep clientPid s) (htyped : ∀ line, a ≠ .typed line)
    (hn : s.next clientPid a = some t) : t.rank < s.rank := by
  obtain ⟨hlines, -, unhandled, complete, pending, hx, hsent, -⟩ := hs
  cases a with
  | typed line => exact absurd rfl (htyped line)
  | sendText =>
    simp only [State.next] at hn
    split at hn
    · next message hpc =>
      cases hn
      rw [hpc] at hx
      have hrank := hx.sendText_rank
      simp only [State.rank, hpc, ClientPc.rank, hrank]
      omega
    · contradiction
  | readLength memory =>
    simp only [State.next] at hn
    split at hn
    · next q hpc =>
      obtain ⟨r, -, rfl⟩ := Option.map_eq_some_iff.mp hn
      simp only [State.rank, hpc, ClientPc.rank]
      omega
    · contradiction
  | readText memory =>
    simp only [State.next] at hn
    split at hn
    · next q len hpc =>
      split at hn
      · cases hn
        simp only [State.rank, hpc, ClientPc.rank]
        omega
      · obtain ⟨r, -, rfl⟩ := Option.map_eq_some_iff.mp hn
        cases q <;> simp [State.rank, hpc, ClientPc.rank]
    · contradiction
  | receive memory =>
    simp only [State.next] at hn
    split at hn
    · next hpc =>
      obtain ⟨⟨len, rest⟩, hread, rfl⟩ := Option.map_eq_some_iff.mp hn
      have hpending := readInt_pending hread
      simp only [State.rank, hpc, HandlerPc.rank, ne_eq, hpending, not_false_eq_true, decide_true,
        if_true]
      omega
    · contradiction
  | handle env memory =>
    simp only [State.next] at hn
    split at hn
    · next len hpc =>
      split at hn
      · cases hn
        simp only [State.rank, hpc, HandlerPc.rank]
        omega
      · obtain ⟨⟨text, rest⟩, hread, rfl⟩ := Option.map_eq_some_iff.mp hn
        rw [hpc] at hx
        have hsub (m : Bytes) (hm : m ∈ unhandled) : (0 : Byte) ∉ m := by
          refine (hlines m ?_).string
          rw [hsent]
          exact List.mem_append_right _ hm
        obtain ⟨-, -, -, rfl, -⟩ := (hx.handle memory.block hsub).2 text rest hread
        have hrank := HandlerPc.after_rank (handleMessage env clientPid text)
        have hold (b : Bool) : (HandlerPc.readText len).rank b = 3 := rfl
        simp only [State.rank, hpc, hold, ne_eq, not_true_eq_false, decide_false]
        omega
    · contradiction
  | writeLength =>
    simp only [State.next] at hn
    split at hn
    · next q written hpc =>
      cases hn
      rw [hpc] at hx
      have hnone := hx.writeLength_requests
      simp [State.rank, hpc, HandlerPc.rank, hnone]
    · contradiction
  | writeText n =>
    simp only [State.next] at hn
    split at hn
    · next q text hpc =>
      split at hn
      · next hpiece =>
        cases hn
        rw [hpc] at hx
        have hrank := HandlerPc.idle_rank q (s.requests ≠ []) text
        simp only [State.rank, hpc, if_pos (hx.writeText hpiece).1]
        omega
      · contradiction
    · contradiction

end Rank

end Conversation
end AdvancedCProjects.Bibo
