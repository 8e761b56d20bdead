import AdvancedCProjects.Base.Lists
import AdvancedCProjects.Bibak.Changes

/-!
# Clients that leave (BibakBOXServer.c:404-463, 521-559)

The threads of the server with the pool of `main`, from the message loop on.
When a client has closed its connection and everything it sent is read, `recv`
returns 0 and leaves the variable it should fill as it was; only -1 is tested in
the message loop. The end of one thread by `exit` ends the process.
-/

namespace AdvancedCProjects.Bibak
open Base

namespace Service

/-- The loop behind a `recv` of the length that has returned 0: the next `recv`
returns 0 too. -/
def endPc (messageLength : ℤ) : ServicePc :=
  if messageLength = 0 then .top
  else if messageLength < -1 then .fault
  else .exited

/-- A `recv` that returns 0; `a` holds what the variables held before. -/
def eof (basePath : Path) (s : Service) (a : Recv) : Service :=
  match s.pc with
  | .top => { s with pc := endPc s.messageLength }
  | .updateSize => { s with pc := .updateNameSize (wrapInt 8 a.old) }
  | .updateNameSize fileSize =>
    if wrapInt 4 a.old < 0 then { s with pc := .fault }
    else if wrapInt 4 a.old = 0 then s.openUpdate fileSize [] a.fs
    else { s with pc := .updateName fileSize [] (wrapInt 4 a.old).toNat }
  | .createNameSize =>
    if wrapInt 4 a.old < 0 then { s with pc := .fault }
    else if wrapInt 4 a.old = 0 then { s with pc := .createSize [] }
    else { s with pc := .createName [] (wrapInt 4 a.old).toNat }
  | .createSize fileName => makeFile basePath s (cstr (fileName ++ a.heap)) a.fs
  | .deleteNameSize =>
    if wrapInt 4 a.old < 0 then { s with pc := .fault }
    else if wrapInt 4 a.old = 0 then s.done (.delete (cstr a.heap))
    else { s with pc := .deleteName [] (wrapInt 4 a.old).toNat }
  | .message _ _ | .updateName _ _ _ | .createName _ _ | .deleteName _ _ =>
    { s with pc := .exited }
  -- the loop over the data goes on for ever
  | .updateData _ _ _ | .exited | .fault => s

end Service

structure Connection where
  slot : ℕ
  clientSock : ℤ
  closed : Bool
  service : Service
  deriving DecidableEq

/-- A free slot of `clientPool` holds -1. -/
structure Pool where
  clientPool : List ℤ
  connections : List Connection
  deriving DecidableEq

/-- `messageLength` is what the new thread finds in its variable. -/
inductive PoolAction where
  | accept (clientSock messageLength : ℤ)
  | send (i : ℕ) (m : Message)
  | close (i : ℕ)
  | recv (i : ℕ) (a : Recv)
  | eof (i : ℕ) (a : Recv)

def PoolAction.thread : PoolAction → Option ℕ
  | recv i _ | eof i _ => some i
  | accept _ _ | send _ _ | close _ => none

namespace Pool

/-- No thread has called `exit` or written past a buffer. -/
def Running (s : Pool) : Prop :=
  ∀ c ∈ s.connections, c.service.pc ≠ .exited ∧ c.service.pc ≠ .fault

instance (s : Pool) : Decidable s.Running := inferInstanceAs (Decidable (∀ c ∈ _, _ ∧ _))

def replace (s : Pool) (i : ℕ) (c : Connection) : Pool :=
  { s with connections := s.connections.set i c }

/-- The body of the loop in `main`. -/
def accept (s : Pool) (clientSock messageLength : ℤ) : Pool :=
  match s.clientPool.findIdx? (· = -1) with
  | none => s
  | some slot =>
    { clientPool := s.clientPool.set slot clientSock
      connections := s.connections ++ [⟨slot, clientSock, false, ⟨[], messageLength, .top, []⟩⟩] }

def step (basePath : Path) (s : Pool) : PoolAction → Option Pool
  | .accept clientSock messageLength =>
    if 0 ≤ clientSock then some (s.accept clientSock messageLength) else none
  | .send i m =>
    match s.connections[i]? with
    | none => none
    | some c =>
      if c.closed then none
      else some (s.replace i { c with
        service := { c.service with pending := c.service.pending ++ m.bytes } })
  | .close i =>
    match s.connections[i]? with
    | none => none
    | some c => if c.closed then none else some (s.replace i { c with closed := true })
  | .recv i a =>
    match s.connections[i]? with
    | none => none
    | some c =>
      (c.service.next basePath a).map fun service => s.replace i { c with service := service }
  | .eof i a =>
    match s.connections[i]? with
    | none => none
    | some c =>
      if c.closed ∧ c.service.pending = [] then
        some (s.replace i { c with service := c.service.eof basePath a })
      else none

def next (basePath : Path) (s : Pool) (a : PoolAction) : Option Pool :=
  if s.Running then s.step basePath a else none

end Pool

def pool (threadSize : ℕ) (basePath : Path) : Machine Pool PoolAction where
  start s := s.clientPool = List.replicate threadSize (-1) ∧ s.connections = []
  next := Pool.next basePath

/-- The thread of a client that has closed its connection neither ends the
process nor touches the others, its slot can become free, and the pool is full
only when that many clients are connected. -/
def Isolated (threadSize : ℕ) (basePath : Path) (s : Pool) : Prop :=
  (∀ i c, s.connections[i]? = some c → c.closed = true →
    (∀ t, (pool threadSize basePath).Path₀ (fun _ a => a.thread = some i) s t →
      t.Running ∧ ∀ j, j ≠ i → t.connections[j]? = s.connections[j]?) ∧
    ∃ t, (pool threadSize basePath).Path₀ (fun _ _ => True) s t ∧
      t.clientPool[c.slot]? = some (-1)) ∧
  (-1 ∉ s.clientPool → s.connections.countP (fun c => !c.closed) = threadSize)

/-! ### What the steps keep -/

/-- Every connection holds a slot, and the other slots are free. -/
structure Slots (threadSize : ℕ) (s : Pool) : Prop where
  size : s.connections.length + s.clientPool.count (-1) = threadSize
  slot : ∀ c ∈ s.connections, ∃ sock, s.clientPool[c.slot]? = some sock ∧ sock ≠ -1

section Steps
variable {threadSize : ℕ} {basePath : Path} {s t : Pool} {a : PoolAction}

/-- A step takes a new client in, turns it away, or changes one connection but not its slot. -/
theorem pool_cases (hn : (pool threadSize basePath).next s a = some t) :
    (∃ sock messageLength, 0 ≤ sock ∧ t = s.accept sock messageLength) ∨
    ∃ i c c', s.connections[i]? = some c ∧ t = s.replace i c' ∧ c'.slot = c.slot := by
  simp only [pool, Pool.next] at hn
  split at hn
  · cases a with
    | accept sock messageLength =>
      simp only [Pool.step] at hn
      split at hn
      · next hsock => exact .inl ⟨sock, messageLength, hsock, (Option.some.inj hn).symm⟩
      · contradiction
    | send i m | close i | eof i a =>
      simp only [Pool.step] at hn
      split at hn
      · contradiction
      · next c hget =>
        split at hn
        all_goals first
          | contradiction
          | exact .inr ⟨i, c, _, hget, (Option.some.inj hn).symm, rfl⟩
    | recv i a =>
      simp only [Pool.step] at hn
      split at hn
      · contradiction
      · next c hget =>
        obtain ⟨service, -, rfl⟩ := Option.map_eq_some_iff.mp hn
        exact .inr ⟨i, c, _, hget, rfl, rfl⟩
  · contradiction

theorem accept_cases (s : Pool) (sock messageLength : ℤ) : s.accept sock messageLength = s ∨
    ∃ slot, s.clientPool[slot]? = some (-1) ∧ s.accept sock messageLength =
      { clientPool := s.clientPool.set slot sock
        connections := s.connections ++ [⟨slot, sock, false, ⟨[], messageLength, .top, []⟩⟩] } := by
  unfold Pool.accept
  cases hfind : s.clientPool.findIdx? (· = -1) with
  | none => exact .inl rfl
  | some slot =>
    obtain ⟨hlt, hfree, -⟩ := List.findIdx?_eq_some_iff_getElem.mp hfind
    refine .inr ⟨slot, ?_, rfl⟩
    rw [List.getElem?_eq_getElem hlt]
    simpa using hfree

theorem slot_step {slot : ℕ} {sock : ℤ} (hslot : s.clientPool[slot]? = some sock) (hne : sock ≠ -1)
    (hn : (pool threadSize basePath).next s a = some t) : t.clientPool[slot]? = some sock := by
  rcases pool_cases hn with ⟨newSock, messageLength, -, rfl⟩ | ⟨i, c, c', -, rfl, -⟩
  · rcases accept_cases s newSock messageLength with heq | ⟨free, hfree, heq⟩
    · rw [heq]
      exact hslot
    · have hother : free ≠ slot := by
        rintro rfl
        exact hne (Option.some.inj (hslot.symm.trans hfree))
      rw [heq]
      dsimp only
      rw [List.getElem?_set_ne hother, hslot]
  · exact hslot

theorem Slots.step (h : Slots threadSize s) (hn : (pool threadSize basePath).next s a = some t) :
    Slots threadSize t := by
  have hslot (c : Connection) (hc : c ∈ s.connections) :
      ∃ sock, t.clientPool[c.slot]? = some sock ∧ sock ≠ -1 := by
    obtain ⟨sock, hsock, hne⟩ := h.slot c hc
    exact ⟨sock, slot_step hsock hne hn, hne⟩
  rcases pool_cases hn with ⟨newSock, messageLength, hpos, rfl⟩ | ⟨i, c, c', hget, rfl, heq⟩
  · rcases accept_cases s newSock messageLength with heq | ⟨free, hfree, heq⟩
    · rw [heq]
      exact h
    · rw [heq] at hslot ⊢
      obtain ⟨l₁, l₂, hsplit, hset⟩ := set_split hfree
      have hsize := h.size
      have hlt := (List.getElem?_eq_some_iff.mp hfree).1
      have hused : newSock ≠ -1 := by omega
      refine ⟨?_, fun c hc => ?_⟩
      · rw [hsplit] at hsize
        simp only [hset, List.length_append, List.length_singleton, List.count_append,
          List.count_cons_self, List.count_cons_of_ne hused] at hsize ⊢
        omega
      · rcases List.mem_append.mp hc with hc | hc
        · exact hslot c hc
        · obtain rfl := List.mem_singleton.mp hc
          exact ⟨newSock, List.getElem?_set_self hlt, hused⟩
  · refine ⟨by simpa [Pool.replace] using h.size, fun d hd => ?_⟩
    rcases List.mem_or_eq_of_mem_set hd with hd | rfl
    · exact hslot d hd
    · rw [heq]
      exact hslot c (List.mem_of_getElem? hget)

theorem slots_inductive (threadSize : ℕ) (basePath : Path) :
    (pool threadSize basePath).Inductive (fun _ _ => True) (Slots threadSize) where
  base s hs := by
    obtain ⟨hpool, hconnections⟩ := hs
    exact ⟨by simp [hpool, hconnections], by simp [hconnections]⟩
  keep _ _ _ h _ hn := h.step hn

/-- The slot of a client that has left is never free again. -/
theorem Slots.never_free (h : Slots threadSize s) {c : Connection} (hc : c ∈ s.connections)
    (hpath : (pool threadSize basePath).Path₀ (fun _ _ => True) s t) :
    t.clientPool[c.slot]? ≠ some (-1) := by
  obtain ⟨sock, hsock, hne⟩ := h.slot c hc
  have hkept := hpath.keep (I := fun u => u.clientPool[c.slot]? = some sock) hsock
    fun _ _ _ hu _ hn => slot_step hu hne hn
  rw [hkept]
  exact fun he => hne (Option.some.inj he)

theorem Slots.isolation (h : Slots threadSize s) :
    Isolated threadSize basePath s ↔ ∀ c ∈ s.connections, c.closed = false := by
  constructor
  · rintro ⟨hclosed, -⟩ c hc
    by_contra hne
    obtain ⟨i, hget⟩ := List.mem_iff_getElem?.mp hc
    obtain ⟨-, t, hpath, hfree⟩ := hclosed i c hget (Bool.eq_true_of_not_eq_false hne)
    exact h.never_free hc hpath hfree
  · intro hopen
    refine ⟨fun i c hget hclosed => ?_, fun hfull => ?_⟩
    · rw [hopen c (List.mem_of_getElem? hget)] at hclosed
      contradiction
    · have hsize := h.size
      have hzero : s.clientPool.count (-1) = 0 := List.count_eq_zero.mpr hfull
      have hall : s.connections.countP (fun c => !c.closed) = s.connections.length :=
        List.countP_eq_length.mpr fun c hc => by simp [hopen c hc]
      omega

theorem endPc_running (messageLength : ℤ) : (Service.endPc messageLength ≠ .exited ∧
    Service.endPc messageLength ≠ .fault) ↔ messageLength = 0 := by
  unfold Service.endPc
  by_cases hzero : messageLength = 0
  · simp [hzero]
  · rw [if_neg hzero]
    split <;> simp [hzero]

/-- What the thread of a client that has left finds next is decided by the
length of the last message. -/
theorem eof_running (hs : s.Running) {i : ℕ} {c : Connection} {r : Recv}
    (hget : s.connections[i]? = some c) (hpc : c.service.pc = .top)
    (hn : (pool threadSize basePath).next s (.eof i r) = some t) :
    t.Running ↔ c.service.messageLength = 0 := by
  simp only [pool, Pool.next, if_pos hs, Pool.step, hget] at hn
  split at hn
  · obtain rfl := Option.some.inj hn
    have hend : (c.service.eof basePath r).pc = Service.endPc c.service.messageLength := by
      simp [Service.eof, hpc]
    rw [← endPc_running, ← hend]
    constructor
    · intro hrun
      have hlt := (List.getElem?_eq_some_iff.mp hget).1
      exact hrun { c with service := c.service.eof basePath r } (List.mem_set hlt _)
    · intro hpc' d hd
      rcases List.mem_or_eq_of_mem_set hd with hd | rfl
      · exact hs d hd
      · exact hpc'
  · contradiction

end Steps

/-- A client that leaves is never let go: its slot stays taken, and its thread
ends the process unless the last length it has read is 0. -/
theorem isolated_iff (threadSize : ℕ) (basePath : Path) (s : Pool)
    (hr : (pool threadSize basePath).Reachable s) :
    (Isolated threadSize basePath s ↔ ∀ c ∈ s.connections, c.closed = false) ∧
    ∀ i c r t, s.Running → s.connections[i]? = some c → c.service.pc = .top →
      (pool threadSize basePath).next s (.eof i r) = some t →
      (t.Running ↔ c.service.messageLength = 0) :=
  ⟨((slots_inductive threadSize basePath).holds hr).isolation,
    fun _ _ _ _ hs hget hpc hn => eof_running hs hget hpc hn⟩

def oneDelete : List PoolAction :=
  [.accept 4 0, .send 0 (.delete (utf8 "/a")), .recv 0 ⟨4, 0, [], true⟩, .recv 0 ⟨11, 0, [], true⟩,
    .recv 0 ⟨4, 0, [], true⟩, .recv 0 ⟨2, 0, [0], true⟩]

def afterDelete (closed : Bool) : Pool :=
  ⟨[4], [⟨0, 4, closed, ⟨[], 11, .top, [.delete (utf8 "/a")]⟩⟩]⟩

def justClosed : Pool := ⟨[4], [⟨0, 4, true, ⟨[], 0, .top, []⟩⟩]⟩

theorem reached {s : Pool} (as : List PoolAction)
    (hrun : (pool 1 (utf8 "s")).run ⟨[-1], []⟩ as = some s) : (pool 1 (utf8 "s")).Reachable s :=
  Machine.Reachable.run (.start ⟨rfl, rfl⟩) as hrun

theorem oneDelete_isolated : Isolated 1 (utf8 "s") (afterDelete false) ∧
    ∃ t, (pool 1 (utf8 "s")).next justClosed (.eof 0 ⟨0, 0, [], true⟩) = some t ∧ t.Running := by
  have hr : (pool 1 (utf8 "s")).Reachable (afterDelete false) :=
    reached oneDelete (by decide +kernel)
  have hr' : (pool 1 (utf8 "s")).Reachable justClosed := reached [.accept 4 0, .close 0] rfl
  have hn : (pool 1 (utf8 "s")).next justClosed (.eof 0 ⟨0, 0, [], true⟩) = some justClosed := rfl
  refine ⟨(isolated_iff 1 (utf8 "s") _ hr).1.mpr (by simp [afterDelete]), justClosed, hn, ?_⟩
  exact ((isolated_iff 1 (utf8 "s") _ hr').2 0 _ _ _ (by decide) rfl rfl hn).mpr rfl

def ClientsIsolated (threadSize : ℕ) (basePath : Path) : Prop :=
  ∀ s, (pool threadSize basePath).Reachable s → Isolated threadSize basePath s

/-- The client that has deleted a file leaves: its thread takes the length of the
last message for a new one and ends the process. -/
theorem leaving_exits : ¬ ClientsIsolated 1 (utf8 "s") := by
  intro h
  have hr : (pool 1 (utf8 "s")).Reachable (afterDelete true) := 
    reached (oneDelete ++ [.close 0]) (by decide +kernel)
  have hn : (pool 1 (utf8 "s")).next (afterDelete true) (.eof 0 ⟨0, 0, [], true⟩)
      = some ⟨[4], [⟨0, 4, true, ⟨[], 11, .exited, [.delete (utf8 "/a")]⟩⟩]⟩ := rfl
  have hrunning := (((h _ hr).1 0 _ rfl rfl).1 _ (.single ⟨_, rfl, hn⟩)).1
  exact absurd hrunning (by decide)

end AdvancedCProjects.Bibak
