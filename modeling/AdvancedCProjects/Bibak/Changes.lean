import AdvancedCProjects.Base.Machine
import AdvancedCProjects.Base.Stream
import AdvancedCProjects.Bibak.Message

/-!
# The server's change loop (BibakBOXServer.c:223-465)

One step is one `recv` of `thread_function` or of a handler, with the work up to
the next one. The connection is the list of bytes that are still to be read.
-/

namespace AdvancedCProjects.Bibak
open Base

def bufferSize : ℕ := 1024

inductive Op where
  | create (path : Path)
  | delete (path : Path)
  | update (path : Path) (data : Bytes)
  deriving DecidableEq

/-- The `recv` that comes next; `exited` is `exit`, `fault` a write past a
buffer or a null pointer. -/
inductive ServicePc where
  | top
  | message (buffer : Bytes) (bytesLeft : ℕ)
  | updateSize
  | updateNameSize (fileSize : ℤ)
  | updateName (fileSize : ℤ) (fileName : Bytes) (bytesLeft : ℕ)
  | updateData (fileName : Path) (fileSize : ℤ) (written : Bytes)
  | createNameSize
  | createName (fileName : Bytes) (bytesLeft : ℕ)
  | createSize (fileName : Bytes)
  | deleteNameSize
  | deleteName (fileName : Bytes) (bytesLeft : ℕ)
  | exited
  | fault
  deriving DecidableEq

structure Service where
  pending : Bytes
  messageLength : ℤ
  pc : ServicePc
  ops : List Op
  deriving DecidableEq

/-- How many bytes `recv` returns, what an uninitialised integer held, what
stands in memory behind a name, and whether the file system calls succeed. -/
structure Recv where
  n : ℕ
  old : ℤ
  heap : Bytes
  fs : Bool

def dot : Byte := 46

/-- `create_folder_structure` rebuilds the path from its tokens in a buffer of
256 bytes. -/
def folderPath (path : Path) : Path :=
  slash :: ((path.splitOn slash).filter (· ≠ [])).flatMap (· ++ [slash])

def lastComponent (result : Path) : Name := (result.reverse.takeWhile (· ≠ slash)).reverse

def createOverflows (result : Path) : Prop :=
  let dirPath := result.take (result.length - (lastComponent result).length)
  slash ∉ result ∨
    if dot ∈ lastComponent result then 256 ≤ dirPath.length ∨ 256 ≤ (folderPath dirPath).length
    else 256 ≤ (folderPath result).length

instance (result : Path) : Decidable (createOverflows result) :=
  inferInstanceAs (Decidable (_ ∨ _))

namespace Service

def done (s : Service) (op : Op) : Service := { s with ops := s.ops ++ [op], pc := .top }

def lengthPc (messageLength : ℤ) : ServicePc :=
  if messageLength = -1 then .exited
  else if messageLength = 0 then .top
  else if messageLength < 0 ∨ messageLength ≥ bufferSize then .fault
  else .message [] messageLength.toNat

def dispatch (buffer : Bytes) : ServicePc :=
  let tag := (cstr buffer).take 11
  if tag = Message.updateTag then .updateSize
  else if tag = Message.createTag then .createNameSize
  else if tag = Message.deleteTag then .deleteNameSize
  else .top

/-- `handle_update` from `fopen` on. -/
def openUpdate (s : Service) (fileSize : ℤ) (fileName : Bytes) (fs : Bool) : Service :=
  if fs then
    if fileSize > 0 then { s with pc := .updateData (cstr fileName) fileSize [] }
    else s.done (.update (cstr fileName) [])
  else { s with pc := .exited }

/-- `handle_create` after its last `recv`. -/
def makeFile (basePath : Path) (s : Service) (fileName : Bytes) (fs : Bool) : Service :=
  if createOverflows (basePath ++ fileName) then { s with pc := .fault }
  else if fs then s.done (.create fileName)
  else { s with pc := .exited }

def next (basePath : Path) (s : Service) (a : Recv) : Option Service :=
  match s.pc with
  | .top => (recvInt 4 a.n s.messageLength s.pending).map fun r =>
      { s with pending := r.2, messageLength := r.1, pc := lengthPc r.1 }
  | .message buffer left => (recv left a.n s.pending).map fun r =>
      let s := { s with pending := r.2 }
      if a.n < left then { s with pc := .message (buffer ++ r.1) (left - a.n) }
      else { s with pc := dispatch (buffer ++ r.1) }
  | .updateSize => (recvInt 8 a.n a.old s.pending).map fun r =>
      { s with pending := r.2, pc := .updateNameSize r.1 }
  | .updateNameSize fileSize => (recvInt 4 a.n a.old s.pending).map fun r =>
      let s := { s with pending := r.2 }
      if r.1 < 0 then { s with pc := .fault }
      else if r.1 = 0 then s.openUpdate fileSize [] a.fs
      else { s with pc := .updateName fileSize [] r.1.toNat }
  | .updateName fileSize fileName left => (recv left a.n s.pending).map fun r =>
      let s := { s with pending := r.2 }
      if a.n < left then { s with pc := .updateName fileSize (fileName ++ r.1) (left - a.n) }
      else s.openUpdate fileSize (fileName ++ r.1) a.fs
  | .updateData fileName fileSize written => (recv bufferSize a.n s.pending).map fun r =>
      let s := { s with pending := r.2 }
      if fileSize - a.n > 0 then
        { s with pc := .updateData fileName (fileSize - a.n) (written ++ r.1) }
      else s.done (.update fileName (written ++ r.1))
  | .createNameSize => (recvInt 4 a.n a.old s.pending).map fun r =>
      let s := { s with pending := r.2 }
      if r.1 < 0 then { s with pc := .fault }
      else if r.1 = 0 then { s with pc := .createSize [] }
      else { s with pc := .createName [] r.1.toNat }
  | .createName fileName left => (recv left a.n s.pending).map fun r =>
      let s := { s with pending := r.2 }
      if a.n < left then { s with pc := .createName (fileName ++ r.1) (left - a.n) }
      else { s with pc := .createSize (fileName ++ r.1) }
  | .createSize fileName => (recvInt 4 a.n a.old s.pending).map fun r =>
      -- the name was never terminated
      makeFile basePath { s with pending := r.2 } (cstr (fileName ++ a.heap)) a.fs
  | .deleteNameSize => (recvInt 4 a.n a.old s.pending).map fun r =>
      let s := { s with pending := r.2 }
      if r.1 < 0 then { s with pc := .fault }
      else if r.1 = 0 then s.done (.delete (cstr a.heap))
      else { s with pc := .deleteName [] r.1.toNat }
  | .deleteName fileName left => (recv left a.n s.pending).map fun r =>
      let s := { s with pending := r.2 }
      if a.n < left then { s with pc := .deleteName (fileName ++ r.1) (left - a.n) }
      else s.done (.delete (cstr (fileName ++ r.1 ++ a.heap)))
  | .exited | .fault => none

end Service

def service (basePath : Path) (messages : List Message) : Machine Service Recv where
  start s := s.pending = messages.flatMap Message.bytes ∧ s.pc = .top ∧ s.ops = []
  next := Service.next basePath

/-- Integers and update data come in the pieces they were sent in, a name is
followed by a zero byte in memory, and the file system calls succeed. -/
def Whole (s : Service) (a : Recv) : Prop :=
  match s.pc with
  | .top | .updateNameSize _ | .createNameSize | .deleteNameSize => a.n = 4
  | .updateSize => a.n = 8
  | .updateName _ _ left => a.n = left → a.fs = true
  | .updateData _ fileSize _ => a.n ≤ fileSize
  | .createSize _ => a.n = 4 ∧ a.heap.head? = some 0 ∧ a.fs = true
  | .deleteName _ left => a.n = left → a.heap.head? = some 0
  | .message _ _ | .createName _ _ | .exited | .fault => True

instance (s : Service) (a : Recv) : Decidable (Whole s a) := by
  unfold Whole
  split <;> infer_instance

def Message.op : Message → Op
  | .create path _ => .create path
  | .delete path => .delete path
  | .update _ path data => .update path data

/-- Paths are non-empty C strings, a created one fits the fixed buffers, and the
size of an update is that of its data. -/
def Message.Ok (basePath : Path) : Message → Prop
  | .create path _ => (path ≠ [] ∧ (0 : Byte) ∉ path ∧ path.length < 2 ^ 31) ∧
      ¬ createOverflows (basePath ++ path)
  | .delete path => path ≠ [] ∧ (0 : Byte) ∉ path ∧ path.length < 2 ^ 31
  | .update fileSize path data => (path ≠ [] ∧ (0 : Byte) ∉ path ∧ path.length < 2 ^ 31) ∧
      fileSize = data.length ∧ data.length < 2 ^ 31

/-! ### Where the server is in the stream -/

/-- `rest` is what the server has still to read of the message. -/
def Unread : ServicePc → Message → Bytes → Prop
  | .message buffer left, m, rest =>
    ∃ tail, m.tag = buffer ++ tail ∧ left = tail.length ∧ tail ≠ [] ∧ rest = tail ++ m.body
  | .updateSize, .update size path data, rest => rest = (Message.update size path data).body
  | .updateNameSize fileSize, .update size path data, rest =>
    fileSize = size ∧ rest = Message.pathBytes path ++ data
  | .updateName fileSize fileName left, .update size path data, rest =>
    fileSize = size ∧
      ∃ tail, path = fileName ++ tail ∧ left = tail.length ∧ tail ≠ [] ∧ rest = tail ++ data
  | .updateData fileName fileSize written, .update _ path data, rest =>
    fileName = path ∧ data = written ++ rest ∧ fileSize = rest.length
  | .createNameSize, .create path size, rest => rest = (Message.create path size).body
  | .createName fileName left, .create path size, rest =>
    ∃ tail, path = fileName ++ tail ∧ left = tail.length ∧ tail ≠ [] ∧
      rest = tail ++ encodeInt 4 size
  | .createSize fileName, .create path size, rest => fileName = path ∧ rest = encodeInt 4 size
  | .deleteNameSize, .delete path, rest => rest = (Message.delete path).body
  | .deleteName fileName left, .delete path, rest =>
    ∃ tail, path = fileName ++ tail ∧ left = tail.length ∧ tail ≠ [] ∧ rest = tail
  | _, _, _ => False

/-- The messages before `todo` are carried out; the server is between two
messages or inside the first of `todo`. -/
def At (s : Service) (todo : List Message) : Prop :=
  (s.pc = .top ∧ s.pending = todo.flatMap Message.bytes) ∨
  ∃ m later rest, todo = m :: later ∧ rest ≠ [] ∧ Unread s.pc m rest ∧
    s.pending = rest ++ later.flatMap Message.bytes

def Aligned (messages : List Message) (s : Service) : Prop :=
  ∃ finished todo, messages = finished ++ todo ∧ s.ops = finished.map Message.op ∧ At s todo

section Steps
variable {basePath : Path} {s t : Service} {a : Recv} {m : Message} {later : List Message}

theorem dispatch_tag (m : Message) : Service.dispatch m.tag = match m with
    | .create _ _ => .createNameSize
    | .delete _ => .deleteNameSize
    | .update _ _ _ => .updateSize := by
  cases m
  all_goals
    simp only [Message.tag]
    decide

theorem tag_ne_nil (m : Message) : m.tag ≠ [] := List.ne_nil_of_length_pos (by simp)

theorem body_ne_nil (m : Message) : m.body ≠ [] := by
  apply List.ne_nil_of_length_pos
  cases m <;> simp [Message.body, Message.pathBytes]

/-- The server stays inside the message, or has carried it out. -/
def Advances (s t : Service) (m : Message) (later : List Message) : Prop :=
  (t.ops = s.ops ∧ At t (m :: later)) ∨ (t.ops = s.ops ++ [m.op] ∧ At t later)

theorem Advances.inside {rest : Bytes} (hops : t.ops = s.ops) (hne : rest ≠ [])
    (hu : Unread t.pc m rest) (hp : t.pending = rest ++ later.flatMap Message.bytes) :
    Advances s t m later :=
  .inl ⟨hops, .inr ⟨m, later, rest, rfl, hne, hu, hp⟩⟩

theorem Advances.done (hops : t.ops = s.ops ++ [m.op]) (hpc : t.pc = .top)
    (hp : t.pending = later.flatMap Message.bytes) : Advances s t m later :=
  .inr ⟨hops, .inl ⟨hpc, hp⟩⟩

theorem length_fits {path : Path} (h : path.length < 2 ^ 31) :
    -(256 ^ 4) ≤ 2 * (path.length : ℤ) ∧ 2 * (path.length : ℤ) < 256 ^ 4 := by
  omega

/-- The received size of a name passes the server's two checks. -/
theorem pathLength_pos {path : Path} (h : path ≠ []) :
    ¬ (path.length : ℤ) < 0 ∧ ¬ (path.length : ℤ) = 0 := by
  have hpos := List.length_pos_iff.mpr h
  omega

theorem recv_pathLength {path : Path} (h : path.length < 2 ^ 31) (old : ℤ) (rest : Bytes) :
    recvInt 4 4 old (Message.pathBytes path ++ rest) = some ((path.length : ℤ), path ++ rest) := by
  rw [Message.pathBytes, List.append_assoc]
  exact recvInt_of_fits (by decide) old _ (length_fits h).1 (length_fits h).2

theorem top_step (hpc : s.pc = .top) (hp : s.pending = (m :: later).flatMap Message.bytes)
    (hw : a.n = 4) (hn : Service.next basePath s a = some t) : Advances s t m later := by
  have hread : recvInt 4 4 s.messageLength s.pending
      = some (11, m.tag ++ m.body ++ later.flatMap Message.bytes) := by
    rw [hp, List.flatMap_cons, Message.bytes, Message.tag_length, List.append_assoc]
    exact recvInt_of_fits (by decide) _ _ (by decide) (by decide)
  simp only [Service.next, hpc, hw, hread, Option.map_some, Option.some.injEq] at hn
  subst hn
  refine .inside rfl ?_ ⟨m.tag, rfl, (m.tag_length).symm, tag_ne_nil m, rfl⟩ rfl
  simp [body_ne_nil]

theorem message_step {buffer : Bytes} {left : ℕ} {rest : Bytes}
    (hpc : s.pc = .message buffer left) (hu : Unread s.pc m rest)
    (hp : s.pending = rest ++ later.flatMap Message.bytes)
    (hn : Service.next basePath s a = some t) : Advances s t m later := by
  rw [hpc] at hu
  obtain ⟨tail, htag, rfl, -, rfl⟩ := hu
  rw [List.append_assoc] at hp
  simp only [Service.next, hpc, hp] at hn
  obtain ⟨⟨got, rest⟩, hr, rfl⟩ := Option.map_eq_some_iff.mp hn
  obtain ⟨tail', rfl, hgot, rfl, hleft, hmore, hlast⟩ := recv_round hr
  dsimp only
  split
  · next hlt =>
    refine .inside rfl (by simp [body_ne_nil])
      ⟨tail', by rw [htag, List.append_assoc], hleft, hmore hlt, rfl⟩ (by simp)
  · next hdone =>
    obtain rfl := hlast hdone
    rw [List.append_nil] at htag
    refine .inside rfl (body_ne_nil m) ?_ (by simp)
    simp only [← htag, dispatch_tag]
    cases m <;> exact rfl

theorem updateSize_step {rest : Bytes} (hpc : s.pc = .updateSize) (hu : Unread s.pc m rest)
    (hok : m.Ok basePath) (hp : s.pending = rest ++ later.flatMap Message.bytes) (hw : a.n = 8)
    (hn : Service.next basePath s a = some t) : Advances s t m later := by
  rw [hpc] at hu
  cases m with
  | update size path data =>
    obtain ⟨-, rfl, hsmall⟩ := hok
    have hread : recvInt 8 8 a.old s.pending = some ((data.length : ℤ),
        Message.pathBytes path ++ data ++ later.flatMap Message.bytes) := by
      rw [hp, hu, Message.body, List.append_assoc]
      exact recvInt_of_fits (by decide) _ _ (by omega) (by omega)
    simp only [Service.next, hpc, hw, hread, Option.map_some, Option.some.injEq] at hn
    subst hn
    exact .inside rfl (by simp [Message.pathBytes, List.ne_nil_of_length_pos]) ⟨rfl, rfl⟩ rfl
  | create => exact hu.elim
  | delete => exact hu.elim

theorem updateNameSize_step {fileSize : ℤ} {rest : Bytes} (hpc : s.pc = .updateNameSize fileSize)
    (hu : Unread s.pc m rest) (hok : m.Ok basePath)
    (hp : s.pending = rest ++ later.flatMap Message.bytes)
    (hw : a.n = 4) (hn : Service.next basePath s a = some t) : Advances s t m later := by
  rw [hpc] at hu
  cases m with
  | update size path data =>
    obtain ⟨⟨hne, -, hsmall⟩, -⟩ := hok
    obtain ⟨rfl, rfl⟩ := hu
    obtain ⟨hneg, hzero⟩ := pathLength_pos hne
    rw [List.append_assoc] at hp
    simp only [Service.next, hpc, hw, hp, recv_pathLength hsmall, Option.map_some, hneg, hzero,
      if_false, Int.toNat_natCast, Option.some.injEq] at hn
    subst hn
    exact .inside rfl (by simp [hne]) ⟨rfl, path, rfl, rfl, hne, rfl⟩ (List.append_assoc ..).symm
  | create => exact hu.elim
  | delete => exact hu.elim

theorem openUpdate_advances {size : ℤ} {path : Path} {data : Bytes}
    (hok : (Message.update size path data).Ok basePath)
    (hp : s.pending = data ++ later.flatMap Message.bytes) :
    Advances s (s.openUpdate size path true) (.update size path data) later := by
  obtain ⟨⟨-, hcstr, -⟩, rfl, -⟩ := hok
  simp only [Service.openUpdate, if_true, cstr_self hcstr]
  split
  · next hpos =>
    exact .inside rfl (List.ne_nil_of_length_pos (by omega)) ⟨rfl, rfl, rfl⟩ hp
  · next hzero =>
    obtain rfl : data = [] := List.length_eq_zero_iff.mp (by omega)
    exact .done rfl rfl hp

theorem updateName_step {fileSize : ℤ} {fileName rest : Bytes} {left : ℕ}
    (hpc : s.pc = .updateName fileSize fileName left) (hu : Unread s.pc m rest)
    (hok : m.Ok basePath) (hp : s.pending = rest ++ later.flatMap Message.bytes)
    (hw : a.n = left → a.fs = true)
    (hn : Service.next basePath s a = some t) : Advances s t m later := by
  rw [hpc] at hu
  cases m with
  | update size path data =>
    obtain ⟨rfl, tail, hpath, rfl, -, rfl⟩ := hu
    rw [List.append_assoc] at hp
    simp only [Service.next, hpc, hp] at hn
    obtain ⟨⟨got, rest⟩, hr, rfl⟩ := Option.map_eq_some_iff.mp hn
    obtain ⟨tail', rfl, hgot, rfl, hleft, hmore, hlast⟩ := recv_round hr
    dsimp only
    split
    · next hlt =>
      have hne := hmore hlt
      exact .inside rfl (by simp [hne])
        ⟨rfl, tail', by rw [hpath, List.append_assoc], hleft, hne, rfl⟩ (by simp)
    · next hdone =>
      obtain rfl := hlast hdone
      rw [List.append_nil] at hpath
      rw [hw (by rw [List.append_nil, hgot]), ← hpath]
      exact openUpdate_advances (s := { s with pending := _ }) hok rfl
  | create => exact hu.elim
  | delete => exact hu.elim

theorem updateData_step {fileSize : ℤ} {fileName : Path} {written rest : Bytes}
    (hpc : s.pc = .updateData fileName fileSize written) (hu : Unread s.pc m rest)
    (hp : s.pending = rest ++ later.flatMap Message.bytes) (hw : a.n ≤ fileSize)
    (hn : Service.next basePath s a = some t) : Advances s t m later := by
  rw [hpc] at hu
  cases m with
  | update size path data =>
    obtain ⟨rfl, rfl, rfl⟩ := hu
    simp only [Service.next, hpc, hp] at hn
    obtain ⟨⟨got, pending⟩, hr, rfl⟩ := Option.map_eq_some_iff.mp hn
    obtain ⟨tail, rfl, hlen, -, rfl⟩ := recv_within (by omega) hr
    have hsize : ((got ++ tail).length : ℤ) - a.n = tail.length := by
      rw [List.length_append, ← hlen]; push_cast; omega
    simp only [hsize, ← List.append_assoc]
    split
    · next hpos =>
      exact .inside rfl (List.ne_nil_of_length_pos (by omega)) ⟨rfl, rfl, rfl⟩ rfl
    · next hzero =>
      obtain rfl : tail = [] := List.length_eq_zero_iff.mp (by omega)
      exact .done (by simp [Service.done, Message.op]) rfl rfl
  | create => exact hu.elim
  | delete => exact hu.elim

theorem createNameSize_step {rest : Bytes} (hpc : s.pc = .createNameSize)
    (hu : Unread s.pc m rest) (hok : m.Ok basePath)
    (hp : s.pending = rest ++ later.flatMap Message.bytes)
    (hw : a.n = 4) (hn : Service.next basePath s a = some t) : Advances s t m later := by
  rw [hpc] at hu
  cases m with
  | create path size =>
    obtain ⟨⟨hne, -, hsmall⟩, -⟩ := hok
    obtain rfl := hu
    obtain ⟨hneg, hzero⟩ := pathLength_pos hne
    rw [Message.body, List.append_assoc] at hp
    simp only [Service.next, hpc, hw, hp, recv_pathLength hsmall, Option.map_some, hneg, hzero,
      if_false, Int.toNat_natCast, Option.some.injEq] at hn
    subst hn
    exact .inside rfl (by simp [hne]) ⟨path, rfl, rfl, hne, rfl⟩ (List.append_assoc ..).symm
  | update => exact hu.elim
  | delete => exact hu.elim

theorem createName_step {fileName rest : Bytes} {left : ℕ} (hpc : s.pc = .createName fileName left)
    (hu : Unread s.pc m rest) (hp : s.pending = rest ++ later.flatMap Message.bytes)
    (hn : Service.next basePath s a = some t) : Advances s t m later := by
  rw [hpc] at hu
  cases m with
  | create path size =>
    obtain ⟨tail, hpath, rfl, -, rfl⟩ := hu
    have hint : encodeInt 4 size ≠ [] := List.ne_nil_of_length_pos (by simp)
    rw [List.append_assoc] at hp
    simp only [Service.next, hpc, hp] at hn
    obtain ⟨⟨got, rest⟩, hr, rfl⟩ := Option.map_eq_some_iff.mp hn
    obtain ⟨tail', rfl, hgot, rfl, hleft, hmore, hlast⟩ := recv_round hr
    dsimp only
    split
    · next hlt =>
      exact .inside rfl (by simp [hint])
        ⟨tail', by rw [hpath, List.append_assoc], hleft, hmore hlt, rfl⟩ (by simp)
    · next hdone =>
      obtain rfl := hlast hdone
      rw [List.append_nil] at hpath
      exact .inside rfl hint ⟨hpath.symm, rfl⟩ (by simp)
  | update => exact hu.elim
  | delete => exact hu.elim

theorem cstr_terminated {path heap : Bytes} (hp : (0 : Byte) ∉ path) (hh : heap.head? = some 0) :
    cstr (path ++ heap) = path := by
  obtain ⟨rest, rfl⟩ := List.head?_eq_some_iff.mp hh
  exact cstr_append hp rest

theorem createSize_step {fileName rest : Bytes} (hpc : s.pc = .createSize fileName)
    (hu : Unread s.pc m rest) (hok : m.Ok basePath)
    (hp : s.pending = rest ++ later.flatMap Message.bytes)
    (hw : Whole s a) (hn : Service.next basePath s a = some t) : Advances s t m later := by
  rw [hpc] at hu
  simp only [Whole, hpc] at hw
  obtain ⟨hn4, hheap, hfs⟩ := hw
  cases m with
  | create path size =>
    obtain ⟨⟨-, hcstr, -⟩, hfits⟩ := hok
    obtain ⟨rfl, rfl⟩ := hu
    simp only [Service.next, hpc, hn4, hp, recvInt_encodeInt (w := 4) (by decide), Option.map_some,
      cstr_terminated hcstr hheap, hfs, Service.makeFile, if_neg hfits, if_true,
      Option.some.injEq] at hn
    subst hn
    exact .done rfl rfl rfl
  | update => exact hu.elim
  | delete => exact hu.elim

theorem deleteNameSize_step {rest : Bytes} (hpc : s.pc = .deleteNameSize)
    (hu : Unread s.pc m rest) (hok : m.Ok basePath)
    (hp : s.pending = rest ++ later.flatMap Message.bytes)
    (hw : a.n = 4) (hn : Service.next basePath s a = some t) : Advances s t m later := by
  rw [hpc] at hu
  cases m with
  | delete path =>
    obtain ⟨hne, -, hsmall⟩ := hok
    obtain rfl := hu
    obtain ⟨hneg, hzero⟩ := pathLength_pos hne
    rw [Message.body] at hp
    simp only [Service.next, hpc, hw, hp, recv_pathLength hsmall, Option.map_some, hneg, hzero,
      if_false, Int.toNat_natCast, Option.some.injEq] at hn
    subst hn
    exact .inside rfl hne ⟨path, rfl, rfl, hne, rfl⟩ rfl
  | update => exact hu.elim
  | create => exact hu.elim

theorem deleteName_step {fileName rest : Bytes} {left : ℕ} (hpc : s.pc = .deleteName fileName left)
    (hu : Unread s.pc m rest) (hok : m.Ok basePath)
    (hp : s.pending = rest ++ later.flatMap Message.bytes)
    (hw : a.n = left → a.heap.head? = some 0)
    (hn : Service.next basePath s a = some t) : Advances s t m later := by
  rw [hpc] at hu
  cases m with
  | delete path =>
    obtain ⟨tail, hpath, rfl, -, rfl⟩ := hu
    simp only [Service.next, hpc, hp] at hn
    obtain ⟨⟨got, rest⟩, hr, rfl⟩ := Option.map_eq_some_iff.mp hn
    obtain ⟨tail', rfl, hgot, rfl, hleft, hmore, hlast⟩ := recv_round hr
    dsimp only
    split
    · next hlt =>
      exact .inside rfl (hmore hlt)
        ⟨tail', by rw [hpath, List.append_assoc], hleft, hmore hlt, rfl⟩ rfl
    · next hdone =>
      obtain rfl := hlast hdone
      rw [List.append_nil] at hpath
      have hend := hw (by rw [List.append_nil, hgot])
      rw [← hpath, cstr_terminated hok.2.1 hend]
      exact .done rfl rfl rfl
  | update => exact hu.elim
  | create => exact hu.elim

end Steps

section Runs
variable {basePath : Path} {messages : List Message} {s t : Service} {a : Recv}

theorem Aligned.of_advances {finished later : List Message} {m : Message}
    (hops : s.ops = finished.map Message.op) (h : Advances s t m later) :
    Aligned (finished ++ m :: later) t := by
  rcases h with ⟨hsame, hat⟩ | ⟨hmore, hat⟩
  · exact ⟨finished, m :: later, rfl, hsame.trans hops, hat⟩
  · exact ⟨finished ++ [m], later, by simp, by simp [hmore, hops], hat⟩

theorem Aligned.step (h : Aligned messages s) (hok : ∀ m ∈ messages, m.Ok basePath)
    (hw : Whole s a) (hn : Service.next basePath s a = some t) : Aligned messages t := by
  obtain ⟨finished, todo, rfl, hops, hat⟩ := h
  rcases hat with ⟨hpc, hp⟩ | ⟨m, later, rest, rfl, -, hu, hp⟩
  · cases todo with
    | nil =>
      simp [Service.next, hpc, hp, recvInt, recv] at hn
      omega
    | cons m later =>
      simp only [Whole, hpc] at hw
      exact .of_advances hops (top_step hpc hp hw hn)
  have hm : m.Ok basePath := hok m (by simp)
  refine .of_advances hops ?_
  cases hpc : s.pc with
  | message buffer left => exact message_step hpc hu hp hn
  | updateSize =>
    simp only [Whole, hpc] at hw
    exact updateSize_step hpc hu hm hp hw hn
  | updateNameSize fileSize =>
    simp only [Whole, hpc] at hw
    exact updateNameSize_step hpc hu hm hp hw hn
  | updateName fileSize fileName left =>
    simp only [Whole, hpc] at hw
    exact updateName_step hpc hu hm hp hw hn
  | updateData fileName fileSize written =>
    simp only [Whole, hpc] at hw
    exact updateData_step hpc hu hp hw hn
  | createNameSize =>
    simp only [Whole, hpc] at hw
    exact createNameSize_step hpc hu hm hp hw hn
  | createName fileName left => exact createName_step hpc hu hp hn
  | createSize fileName => exact createSize_step hpc hu hm hp hw hn
  | deleteNameSize =>
    simp only [Whole, hpc] at hw
    exact deleteNameSize_step hpc hu hm hp hw hn
  | deleteName fileName left =>
    simp only [Whole, hpc] at hw
    exact deleteName_step hpc hu hm hp hw hn
  | top => simp [hpc, Unread] at hu
  | exited => simp [hpc, Unread] at hu
  | fault => simp [hpc, Unread] at hu

theorem aligned_inductive (hok : ∀ m ∈ messages, m.Ok basePath) :
    (service basePath messages).Inductive Whole (Aligned messages) where
  base _ hs := ⟨[], messages, rfl, hs.2.2, .inl ⟨hs.2.1, hs.1⟩⟩
  keep _ _ _ h ha hn := h.step hok ha hn

theorem Aligned.continues (basePath : Path) (h : Aligned messages s) (hp : s.pending ≠ []) :
    ∃ a t, Whole s a ∧ Service.next basePath s a = some t := by
  suffices hsome : ∃ a, Whole s a ∧ (Service.next basePath s a).isSome = true by
    obtain ⟨a, ha, hn⟩ := hsome
    obtain ⟨t, ht⟩ := Option.isSome_iff_exists.mp hn
    exact ⟨a, t, ha, ht⟩
  obtain ⟨finished, todo, -, -, ⟨hpc, htop⟩ | ⟨m, later, rest, -, hne, hu, hrest⟩⟩ := h
  · refine ⟨⟨4, 0, [0], true⟩, by simp [Whole, hpc], ?_⟩
    have hlen : 4 ≤ s.pending.length := by
      cases todo with
      | nil => exact (hp htop).elim
      | cons m later =>
        rw [htop]
        simp [Message.bytes]
    simp [Service.next, hpc, recvInt_isSome, hlen]
  have hlen : rest.length ≤ s.pending.length := by simp [hrest]
  have hpos : 1 ≤ s.pending.length := List.length_pos_iff.mpr hp
  -- an integer is read whole, anything else byte by byte
  have int : ∀ w, w = 4 ∨ w = 8 → w ≤ rest.length → ∀ old,
      (recvInt w w old s.pending).isSome = true :=
    fun w hw hr old => recvInt_isSome (by omega) (hr.trans hlen)
  have byte : ∀ limit, 1 ≤ limit → (recv limit 1 s.pending).isSome = true :=
    fun limit hl => recv_isSome one_pos hl hpos
  cases hpc : s.pc with
  | message buffer left =>
    rw [hpc] at hu
    obtain ⟨tail, -, rfl, htail, -⟩ := hu
    exact ⟨⟨1, 0, [0], true⟩, by simp [Whole, hpc],
      by simp [Service.next, hpc, byte _ (List.length_pos_iff.mpr htail)]⟩
  | updateSize =>
    cases m <;> simp only [hpc, Unread] at hu
    refine ⟨⟨8, 0, [0], true⟩, by simp [Whole, hpc], ?_⟩
    simp [Service.next, hpc, int 8 (.inr rfl) (by simp [hu, Message.body])]
  | updateNameSize fileSize =>
    cases m <;> simp only [hpc, Unread] at hu
    refine ⟨⟨4, 0, [0], true⟩, by simp [Whole, hpc], ?_⟩
    simp [Service.next, hpc, int 4 (.inl rfl) (by simp [hu.2, Message.pathBytes])]
  | updateName fileSize fileName left =>
    cases m <;> simp only [hpc, Unread] at hu
    obtain ⟨-, tail, -, rfl, htail, -⟩ := hu
    exact ⟨⟨1, 0, [0], true⟩, by simp [Whole, hpc],
      by simp [Service.next, hpc, byte _ (List.length_pos_iff.mpr htail)]⟩
  | updateData fileName fileSize written =>
    cases m <;> simp only [hpc, Unread] at hu
    obtain ⟨-, -, rfl⟩ := hu
    have hrest := List.length_pos_iff.mpr hne
    exact ⟨⟨1, 0, [0], true⟩, by simp only [Whole, hpc]; omega,
      by simp [Service.next, hpc, byte bufferSize (by decide)]⟩
  | createNameSize =>
    cases m <;> simp only [hpc, Unread] at hu
    refine ⟨⟨4, 0, [0], true⟩, by simp [Whole, hpc], ?_⟩
    simp [Service.next, hpc,
      int 4 (.inl rfl) (by simp [hu, Message.body, Message.pathBytes])]
  | createName fileName left =>
    cases m <;> simp only [hpc, Unread] at hu
    obtain ⟨tail, -, rfl, htail, -⟩ := hu
    exact ⟨⟨1, 0, [0], true⟩, by simp [Whole, hpc],
      by simp [Service.next, hpc, byte _ (List.length_pos_iff.mpr htail)]⟩
  | createSize fileName =>
    cases m <;> simp only [hpc, Unread] at hu
    refine ⟨⟨4, 0, [0], true⟩, by simp [Whole, hpc], ?_⟩
    simp [Service.next, hpc, int 4 (.inl rfl) (by simp [hu.2])]
  | deleteNameSize =>
    cases m <;> simp only [hpc, Unread] at hu
    refine ⟨⟨4, 0, [0], true⟩, by simp [Whole, hpc], ?_⟩
    simp [Service.next, hpc, int 4 (.inl rfl) (by simp [hu, Message.body, Message.pathBytes])]
  | deleteName fileName left =>
    cases m <;> simp only [hpc, Unread] at hu
    obtain ⟨tail, -, rfl, htail, -⟩ := hu
    exact ⟨⟨1, 0, [0], true⟩, by simp [Whole, hpc],
      by simp [Service.next, hpc, byte _ (List.length_pos_iff.mpr htail)]⟩
  | top => simp [hpc, Unread] at hu
  | exited => simp [hpc, Unread] at hu
  | fault => simp [hpc, Unread] at hu

end Runs

/-! ### The client's changes -/

namespace Event

def op (basePath : Path) : Event → Op
  | .created file => .create (removeBasePath file.path basePath)
  | .deleted filePath => .delete (removeBasePath filePath basePath)
  | .updated file => .update (removeBasePath file.path basePath) file.content

def Ok (e : Event) : Prop := e.filePath.length < maxPathLength ∧ (0 : Byte) ∉ e.filePath

/-- The folder of a created path fits the server's buffers, and the size of an
updated file fits an `int`. -/
def Fits (serverBase basePath : Path) : Event → Prop
  | .created file => ¬ createOverflows (serverBase ++ removeBasePath file.path basePath)
  | .deleted _ => True
  | .updated file => file.content.length < 2 ^ 31

instance (e : Event) : Decidable e.Ok := inferInstanceAs (Decidable (_ ∧ _))

instance (serverBase basePath : Path) (e : Event) : Decidable (e.Fits serverBase basePath) :=
  match e with
  | .created _ => inferInstanceAs (Decidable (¬ _))
  | .deleted _ => inferInstanceAs (Decidable True)
  | .updated _ => inferInstanceAs (Decidable (_ < _))

variable {serverBase basePath : Path} {e : Event}

theorem message_op (e : Event) : (e.message basePath).op = e.op basePath := by
  cases e <;> rfl

theorem relativePath_ok (basePath : Path) {filePath : Path} (hlen : filePath.length < maxPathLength)
    (hcstr : (0 : Byte) ∉ filePath) :
    removeBasePath filePath basePath ≠ [] ∧ (0 : Byte) ∉ removeBasePath filePath basePath ∧
      (removeBasePath filePath basePath).length < 2 ^ 31 := by
  obtain ⟨rest, heq, hsuf⟩ := removeBasePath_eq filePath basePath
  rw [heq]
  refine ⟨by simp, ?_, ?_⟩
  · intro hmem
    rcases List.mem_cons.mp hmem with hz | hmem
    · exact absurd hz (by decide)
    · exact hcstr (hsuf.subset hmem)
  · have hle := hsuf.length_le
    simp only [maxPathLength] at hlen
    simp only [List.length_cons]
    omega

theorem message_ok (hok : e.Ok) (hfits : e.Fits serverBase basePath) :
    (e.message basePath).Ok serverBase := by
  have hpath := relativePath_ok basePath hok.1 hok.2
  cases e with
  | created file => exact ⟨hpath, hfits⟩
  | deleted filePath => exact hpath
  | updated file =>
    have hsmall : file.content.length < 2 ^ 31 := hfits
    exact ⟨hpath, getFileSize_of_small hsmall, hsmall⟩

end Event

/-- When integers arrive whole, no read of data goes past its file, names end
with a zero byte and the file system calls succeed, the server carries out the
client's changes, one after the other, and stops between two messages. -/
theorem changes_decoded (serverBase basePath : Path) (events : List Event)
    (hok : ∀ e ∈ events, e.Ok ∧ e.Fits serverBase basePath) (s : Service)
    (hr : (service serverBase (events.map (Event.message basePath))).Reaches Whole s) :
    s.ops <+: events.map (Event.op basePath) ∧
    (s.pending = [] → s.pc = .top ∧ s.ops = events.map (Event.op basePath)) ∧
    (s.pending ≠ [] → ∃ a t, Whole s a ∧ Service.next serverBase s a = some t) := by
  have hmessages : ∀ m ∈ events.map (Event.message basePath), m.Ok serverBase := by
    intro m hm
    obtain ⟨e, he, rfl⟩ := List.mem_map.mp hm
    exact Event.message_ok (hok e he).1 (hok e he).2
  have h := (aligned_inductive hmessages).holds hr
  refine ⟨?_, ?_, h.continues serverBase⟩
  all_goals
    obtain ⟨finished, todo, hsplit, hops, hat⟩ := h
    have hall : events.map (Event.op basePath)
        = finished.map Message.op ++ todo.map Message.op := by
      rw [← List.map_append, ← hsplit, List.map_map]
      exact List.map_congr_left fun e _ => (e.message_op).symm
    rw [hall, hops]
  · exact List.prefix_append _ _
  · intro hempty
    rcases hat with ⟨hpc, hp⟩ | ⟨m, later, rest, -, hne, -, hp⟩
    · cases todo with
      | nil => exact ⟨hpc, by simp⟩
      | cons m later => simp [hempty, Message.bytes, tag_ne_nil] at hp
    · simp [hempty, hne] at hp

def twoChanges : List Event :=
  [.updated ⟨utf8 "w/a", false, 1, utf8 "x"⟩, .deleted (utf8 "w/b")]

def fieldReads : List Recv :=
  [⟨4, 0, [], true⟩, ⟨11, 0, [], true⟩, ⟨8, 0, [], true⟩, ⟨4, 0, [], true⟩, ⟨2, 0, [], true⟩,
    ⟨1, 0, [], true⟩, ⟨4, 0, [], true⟩, ⟨11, 0, [], true⟩, ⟨4, 0, [], true⟩, ⟨2, 0, [0], true⟩]

def startOn (basePath : Path) (events : List Event) : Service where
  pending := (events.map (Event.message basePath)).flatMap Message.bytes
  messageLength := 0
  pc := .top
  ops := []

theorem startOn_start (serverBase basePath : Path) (events : List Event) :
    (service serverBase (events.map (Event.message basePath))).start (startOn basePath events) :=
  ⟨rfl, rfl, rfl⟩

theorem twoChanges_decoded : ∃ s,
    (service (utf8 "/srv") (twoChanges.map (Event.message watchedDir))).Reaches Whole s ∧
    s.pc = .top ∧ s.ops = [.update (utf8 "/a") (utf8 "x"), .delete (utf8 "/b")] := by
  have hrun : (((service (utf8 "/srv") (twoChanges.map (Event.message watchedDir))).guarded
      Whole).run (startOn watchedDir twoChanges) fieldReads).map Service.pending = some [] := by
    decide
  obtain ⟨s, hs, hempty⟩ := Option.map_eq_some_iff.mp hrun
  have hr := Machine.Reaches.run (.start (startOn_start _ _ _)) _ hs
  have h := changes_decoded (utf8 "/srv") watchedDir twoChanges (by decide) s hr
  exact ⟨s, hr, (h.2.1 hempty).1, (h.2.1 hempty).2⟩

def ChangesDecoded (serverBase basePath : Path) : Prop :=
  ∀ events : List Event, (∀ e ∈ events, e.Ok) → ∀ s,
    (service serverBase (events.map (Event.message basePath))).Reaches
      (fun _ a => a.heap.head? = some 0 ∧ a.fs = true) s →
    s.pending = [] → s.pc = .top ∧ s.ops = events.map (Event.op basePath)

/-- The read of the data limits itself to the buffer, not to the file: it takes
the message behind it too and writes it into the file. -/
theorem delete_swallowed : ¬ ChangesDecoded (utf8 "/srv") watchedDir := by
  intro h
  have hrun : (((service (utf8 "/srv") (twoChanges.map (Event.message watchedDir))).guarded
      fun _ a => a.heap.head? = some 0 ∧ a.fs = true).run (startOn watchedDir twoChanges)
      [⟨4, 0, [0], true⟩, ⟨11, 0, [0], true⟩, ⟨8, 0, [0], true⟩, ⟨4, 0, [0], true⟩,
        ⟨2, 0, [0], true⟩, ⟨22, 0, [0], true⟩]).map (fun s => (s.pending, s.ops.length))
      = some ([], 1) := by decide
  obtain ⟨s, hs, hf⟩ := Option.map_eq_some_iff.mp hrun
  obtain ⟨hempty, hlen⟩ := Prod.mk.inj hf
  have hr := Machine.Reaches.run (.start (startOn_start _ _ _)) _ hs
  have hops := (h twoChanges (by decide) s hr hempty).2
  rw [hops] at hlen
  exact absurd hlen (by decide)

end AdvancedCProjects.Bibak
