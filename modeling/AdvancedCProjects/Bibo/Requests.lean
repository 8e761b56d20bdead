import AdvancedCProjects.Base.Machine
import Mathlib.Data.Int.Notation
import Mathlib.Data.List.Basic

/-!
# Requests on the server FIFO (biboClient.c:120-144, biboServer.c:548-594)

A client writes its pid and its connection mode, four bytes each, while it
holds the semaphore; the server reads the two halves without blocking. Writes
and reads of four bytes are atomic, so the FIFO is a list of integers.
-/

namespace AdvancedCProjects.Bibo
open Base

inductive Writer where
  | acquired (clientPid connectionMode : ℤ)
  | pidWritten (clientPid connectionMode : ℤ)
  | modeWritten
  deriving DecidableEq

inductive ReadPc where
  | first
  | second
  deriving DecidableEq

/-- `written` are the records of the clients, `acted` the pairs the server loop
goes on with. -/
structure Requests where
  fifo : List ℤ
  semaphore : Option Writer
  pc : ReadPc
  clientPid : ℤ
  connectionMode : ℤ
  written : List (ℤ × ℤ)
  acted : List (ℤ × ℤ)

inductive RequestStep where
  | semWait (clientPid connectionMode : ℤ)
  | writePid
  | writeMode
  | semPost
  | read

namespace Requests

/-- The server's next read. The result of the second one is not looked at: on an
empty FIFO the mode is the one of the request before. -/
def read (s : Requests) : Requests :=
  match s.pc, s.fifo with
  | .first, [] => s
  | .first, pid :: rest => { s with fifo := rest, clientPid := pid, pc := .second }
  | .second, [] => { s with acted := s.acted ++ [(s.clientPid, s.connectionMode)], pc := .first }
  | .second, mode :: rest => { s with
      fifo := rest, connectionMode := mode, acted := s.acted ++ [(s.clientPid, mode)], pc := .first }

def next (s : Requests) : RequestStep → Option Requests
  | .semWait pid mode => match s.semaphore with
    | none => some { s with semaphore := some (.acquired pid mode) }
    | some _ => none
  | .writePid => match s.semaphore with
    | some (.acquired pid mode) =>
      some { s with fifo := s.fifo ++ [pid], semaphore := some (.pidWritten pid mode) }
    | _ => none
  | .writeMode => match s.semaphore with
    | some (.pidWritten pid mode) => some { s with
        fifo := s.fifo ++ [mode], written := s.written ++ [(pid, mode)]
        semaphore := some .modeWritten }
    | _ => none
  | .semPost => match s.semaphore with
    | some .modeWritten => some { s with semaphore := none }
    | _ => none
  | .read => some s.read

def start (s : Requests) : Prop :=
  s.fifo = [] ∧ s.semaphore = none ∧ s.pc = .first ∧ s.written = [] ∧ s.acted = []

def flat (records : List (ℤ × ℤ)) : List ℤ := records.flatMap fun r => [r.1, r.2]

/-- The half record that is in the FIFO or with the server. -/
def half (s : Requests) : List ℤ :=
  match s.semaphore with
  | some (.pidWritten pid _) => [pid]
  | _ => []

def taken (s : Requests) : List ℤ :=
  match s.pc with
  | .first => []
  | .second => [s.clientPid]

/-- The server acts on the records written, in order and each once; when nothing
is under way it has acted on all of them. -/
def Matches (s : Requests) : Prop :=
  s.acted <+: s.written ∧
  (s.fifo = [] → s.half = [] → s.pc = .first → s.acted = s.written)

/-- The second read finds the mode in the FIFO. -/
def InTime (s : Requests) : RequestStep → Prop
  | .read => s.pc = .second → s.fifo ≠ []
  | _ => True

instance (s : Requests) (a : RequestStep) : Decidable (InTime s a) := by
  unfold InTime
  split <;> infer_instance

end Requests

def requests : Machine Requests RequestStep where
  start := Requests.start
  next := Requests.next

namespace Requests

/-- FIFO and server hold exactly the records not acted on. -/
def Aligned (s : Requests) : Prop :=
  ∃ todo, s.written = s.acted ++ todo ∧ s.taken ++ s.fifo = flat todo ++ s.half

variable {s t : Requests}

theorem Aligned.matches (h : Aligned s) : Matches s := by
  obtain ⟨todo, hwritten, hfifo⟩ := h
  refine ⟨⟨todo, hwritten.symm⟩, fun hempty hhalf hpc => ?_⟩
  simp only [hempty, hhalf, taken, hpc, List.append_nil] at hfifo
  cases todo with
  | nil => rw [hwritten, List.append_nil]
  | cons r rest => simp [flat] at hfifo

theorem Aligned.read (h : Aligned s) (hok : InTime s .read) : Aligned s.read := by
  obtain ⟨todo, hwritten, hfifo⟩ := h
  cases hpc : s.pc with
  | first =>
    cases hf : s.fifo with
    | nil =>
      have hstay : s.read = s := by simp only [Requests.read, hpc, hf]
      rw [hstay]
      exact ⟨todo, hwritten, hfifo⟩
    | cons pid rest =>
      refine ⟨todo, ?_, ?_⟩
      · simpa only [Requests.read, hpc, hf] using hwritten
      · simpa [Requests.read, taken, half, hpc, hf] using hfifo
  | second =>
    cases hf : s.fifo with
    | nil => exact (hok hpc hf).elim
    | cons mode rest =>
      simp only [taken, hpc, hf, List.singleton_append] at hfifo
      -- two integers are more than half a record
      cases todo with
      | nil =>
        have hlen := congrArg List.length hfifo
        simp only [flat, List.flatMap_nil, List.nil_append, List.length_cons] at hlen
        have hshort : s.half.length ≤ 1 := by
          simp only [half]
          split <;> simp
        omega
      | cons r later =>
        simp only [flat, List.flatMap_cons, List.cons_append, List.nil_append, List.cons.injEq]
          at hfifo
        obtain ⟨hpid, hmode, hrest⟩ := hfifo
        refine ⟨later, ?_, ?_⟩
        · simp [Requests.read, hpc, hf, hwritten, hpid, hmode]
        · simpa [Requests.read, taken, half, flat, hpc, hf] using hrest

theorem aligned_inductive : requests.Inductive InTime Aligned where
  base s hs := by
    obtain ⟨hfifo, hsem, hpc, hwritten, hacted⟩ := hs
    exact ⟨[], by simp [hwritten, hacted], by simp [taken, half, flat, hfifo, hsem, hpc]⟩
  keep s a t h hok hn := by
    cases a with
    | read =>
      obtain rfl := Option.some.inj hn
      exact h.read hok
    | semWait pid mode =>
      obtain ⟨todo, hwritten, hfifo⟩ := h
      simp only [requests, next] at hn
      split at hn
      · next hsem =>
        cases hn
        exact ⟨todo, hwritten, by simpa [taken, half, hsem] using hfifo⟩
      · contradiction
    | writePid =>
      obtain ⟨todo, hwritten, hfifo⟩ := h
      simp only [requests, next] at hn
      split at hn
      · next pid mode hsem =>
        cases hn
        simp only [half, hsem, List.append_nil] at hfifo
        refine ⟨todo, hwritten, ?_⟩
        simp only [half, ← hfifo, List.append_assoc]
        rfl
      · contradiction
    | writeMode =>
      obtain ⟨todo, hwritten, hfifo⟩ := h
      simp only [requests, next] at hn
      split at hn
      · next pid mode hsem =>
        cases hn
        simp only [half, hsem] at hfifo
        refine ⟨todo ++ [(pid, mode)], by simp [hwritten], ?_⟩
        show s.taken ++ (s.fifo ++ [mode]) = flat (todo ++ [(pid, mode)]) ++ []
        rw [← List.append_assoc, hfifo]
        simp [flat]
      · contradiction
    | semPost =>
      obtain ⟨todo, hwritten, hfifo⟩ := h
      simp only [requests, next] at hn
      split at hn
      · next hsem =>
        cases hn
        exact ⟨todo, hwritten, by simpa [taken, half, hsem] using hfifo⟩
      · contradiction

theorem Aligned.not_matches (h : Aligned s) (hpc : s.pc = .second) (hf : s.fifo = []) :
    ¬ Matches s.read := by
  rintro ⟨hpre, -⟩
  obtain ⟨todo, hwritten, hfifo⟩ := h
  have hlen := hpre.length_le
  simp only [Requests.read, hpc, hf, List.length_append, List.length_singleton] at hlen
  simp only [taken, hpc, hf, List.append_nil] at hfifo
  have hsum := congrArg List.length hfifo
  have hwlen := congrArg List.length hwritten
  cases todo with
  | nil =>
    simp only [List.append_nil] at hwlen
    omega
  | cons r later => simp [flat] at hsum

end Requests

/-- As long as every second read finds the mode, the server acts on exactly the
requests written; the first one that does not ends this. -/
theorem requests_matched (s : Requests) (hr : requests.Reaches Requests.InTime s) :
    s.Matches ∧ ∀ a t, requests.next s a = some t → (t.Matches ↔ s.InTime a) := by
  have h := Requests.aligned_inductive.holds hr
  refine ⟨h.matches, fun a t hn => ⟨fun hm => ?_, fun hok => ?_⟩⟩
  · cases a with
    | read =>
      rintro hpc hf
      obtain rfl := Option.some.inj hn
      exact h.not_matches hpc hf hm
    | _ => trivial
  · exact (Requests.aligned_inductive.keep _ _ _ h hok hn).matches

def Requests.init (clientPid connectionMode : ℤ) : Requests where
  fifo := []
  semaphore := none
  pc := .first
  clientPid := clientPid
  connectionMode := connectionMode
  written := []
  acted := []

theorem Requests.init_start (clientPid connectionMode : ℤ) :
    requests.start (Requests.init clientPid connectionMode) := ⟨rfl, rfl, rfl, rfl, rfl⟩

theorem oneRequest_matched : ∃ s, requests.Reaches Requests.InTime s ∧
    s.acted = [(11, 1)] ∧ s.Matches := by
  have hrun : ((requests.guarded Requests.InTime).run (.init 0 0) [.semWait 11 1, .writePid,
      .read, .writeMode, .read, .semPost]).map Requests.acted = some [(11, 1)] := by decide
  obtain ⟨s, hs, hacted⟩ := Option.map_eq_some_iff.mp hrun
  have hr := Machine.Reaches.run (.start (Requests.init_start 0 0)) _ hs
  exact ⟨s, hr, hacted, (requests_matched s hr).1⟩

def RequestsMatched : Prop := ∀ s, requests.Reachable s → s.Matches

/-- The server reads between the two writes of a client: it acts on the pid with
the mode of nobody, and then takes the mode for a pid. -/
theorem request_torn : ¬ RequestsMatched := by
  intro h
  have hrun : (requests.run (.init 0 0) [.semWait 11 1, .writePid, .read, .read, .writeMode, .read,
      .read]).map (fun s => (s.acted, s.written)) = some ([(11, 0), (1, 0)], [(11, 1)]) := by decide
  obtain ⟨s, hs, hf⟩ := Option.map_eq_some_iff.mp hrun
  obtain ⟨hacted, hwritten⟩ := Prod.mk.inj hf
  have hr := Machine.Reachable.run (.start (Requests.init_start 0 0)) _ hs
  have hpre := (h s hr).1
  rw [hacted, hwritten] at hpre
  exact absurd hpre.length_le (by decide)

end AdvancedCProjects.Bibo
