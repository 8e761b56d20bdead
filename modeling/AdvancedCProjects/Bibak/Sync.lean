import AdvancedCProjects.Bibak.Changes

/-!
# The initial synchronisation (BibakBOXServer.c:156-209, BibakBOXClient.c:506-610)

The server sends its directory entries and then its files; the client reads
records, makes the same structure, and saves the files. One step of the client
is one `read` or `recv`.
-/

namespace AdvancedCProjects.Bibak
open Base

def filePathSize : ℕ := maxPathLength + 4

structure FilePath where
  path : Bytes
  isFile : ℤ
  size : path.length = maxPathLength
  int : wrapInt 4 isFile = isFile

namespace FilePath

def bytes (e : FilePath) : Bytes := e.path ++ encodeInt 4 e.isFile

@[simp] theorem bytes_length (e : FilePath) : e.bytes.length = filePathSize := by
  simp [bytes, e.size, filePathSize]

/-- The memory of an entry after a read of `got` over it. -/
def memory (e : FilePath) (got : Bytes) : Bytes := got ++ e.bytes.drop got.length

theorem memory_length (e : FilePath) (got : Bytes) : filePathSize ≤ (e.memory got).length := by
  simp only [memory, List.length_append, List.length_drop, bytes_length]
  omega

def overwrite (e : FilePath) (got : Bytes) : FilePath where
  path := (e.memory got).take maxPathLength
  isFile := decodeInt (((e.memory got).drop maxPathLength).take 4)
  size := by
    have h := e.memory_length got
    simp only [List.length_take, filePathSize] at h ⊢
    omega
  int := by
    have h := e.memory_length got
    have hlen : (((e.memory got).drop maxPathLength).take 4).length = 4 := by
      simp only [List.length_take, List.length_drop, filePathSize] at h ⊢
      omega
    have hint := wrapInt_decodeInt (((e.memory got).drop maxPathLength).take 4)
    rwa [hlen] at hint

theorem overwrite_bytes (old e : FilePath) : old.overwrite e.bytes = e := by
  have hmem : old.memory e.bytes = e.bytes := by simp [memory]
  obtain ⟨path, isFile, size, int⟩ := e
  simp only [overwrite, hmem, FilePath.mk.injEq]
  simp only [bytes, ← size, List.take_left, List.drop_left, true_and]
  rw [List.take_of_length_le (by simp), decodeInt_encodeInt]
  exact int

end FilePath

def FilePath.ofPath (path : Path) (isFile : Bool) : FilePath where
  path := (path ++ List.replicate maxPathLength 0).take maxPathLength
  isFile := if isFile then 1 else 0
  size := by simp
  int := by cases isFile <;> decide

/-! ### The server -/

def sendDirectoryContents (contents : List FilePath) : Bytes :=
  encodeInt 4 contents.length ++ contents.flatMap FilePath.bytes

/-- `sendFile` on one entry; `read` is what the server's files hold. -/
def fileBytes (content : Bytes) : Bytes := encodeInt 8 (wrapInt 4 content.length) ++ content

/-- `sendFile`: the entries that are no files are passed over. -/
def sendFile (read : FilePath → Bytes) (contents : List FilePath) : Bytes :=
  (contents.filter fun e => e.isFile ≠ 0).flatMap fun e => fileBytes (read e)

/-! ### The client -/

/-- `exited` is `exit`. -/
inductive SyncPc where
  | count
  | record (left : ℕ)
  | fileSize (newPath : Path) (later : List Path)
  | fileData (newPath : Path) (later : List Path) (fileSize : ℤ) (written : Bytes)
  | done
  | exited

structure Sync where
  pending : Bytes
  contents : List FilePath
  saved : List (Path × Bytes)
  pc : SyncPc

/-- How many bytes a read returns, what the variables held before, and whether
`fopen` succeeds. -/
structure SyncRead where
  n : ℕ
  old : ℤ
  oldEntry : FilePath
  fs : Bool

/-- The path of an entry below the client's directory, cut off by `snprintf`. -/
def destinationPath (sourceDirectory destinationDirectory : Path) (e : FilePath) : Path :=
  (destinationDirectory ++ slash :: cstr (e.bytes.drop (sourceDirectory.length + 1))).take
    (maxPathLength - 1)

/-- `createSameDirectoryStructure`, as far as `newPaths`. -/
def newPaths (sourceDirectory destinationDirectory : Path) (contents : List FilePath) : List Path :=
  (contents.filter fun e => e.isFile ≠ 0).map (destinationPath sourceDirectory destinationDirectory)

namespace Sync

def nextFile : List Path → SyncPc
  | [] => .done
  | newPath :: later => .fileSize newPath later

def save (s : Sync) (newPath : Path) (later : List Path) (written : Bytes) : Sync :=
  { s with saved := s.saved ++ [(newPath, written)], pc := nextFile later }

def next (sourceDirectory destinationDirectory : Path) (s : Sync) (a : SyncRead) : Option Sync :=
  match s.pc with
  | .count => (recvInt 4 a.n a.old s.pending).map fun r =>
      let s := { s with pending := r.2 }
      if r.1 ≤ 0 then { s with pc := .done } else { s with pc := .record r.1.toNat }
  | .record left => (recv filePathSize a.n s.pending).map fun r =>
      let contents := s.contents ++ [a.oldEntry.overwrite r.1]
      { s with
        pending := r.2
        contents := contents
        pc := if left > 1 then .record (left - 1)
          else nextFile (newPaths sourceDirectory destinationDirectory contents) }
  | .fileSize newPath later => (recvInt 8 a.n a.old s.pending).map fun r =>
      let s := { s with pending := r.2 }
      if a.fs then
        if r.1 > 0 then { s with pc := .fileData newPath later r.1 [] } else s.save newPath later []
      else { s with pc := .exited }
  | .fileData newPath later fileSize written => (recv bufferSize a.n s.pending).map fun r =>
      let s := { s with pending := r.2 }
      if fileSize - a.n > 0 then
        { s with pc := .fileData newPath later (fileSize - a.n) (written ++ r.1) }
      else s.save newPath later (written ++ r.1)
  | .done | .exited => none

end Sync

/-- The client on what the server sends. -/
def sync (sourceDirectory destinationDirectory : Path) (contents : List FilePath)
    (read : FilePath → Bytes) : Machine Sync SyncRead where
  start s := s.pending = sendDirectoryContents contents ++ sendFile read contents ∧
    s.contents = [] ∧ s.saved = [] ∧ s.pc = .count
  next := Sync.next sourceDirectory destinationDirectory

/-- Integers and records come in the pieces they were sent in, no read of data
goes past its file, and the client can open its files. -/
def Sync.Whole (s : Sync) (a : SyncRead) : Prop :=
  match s.pc with
  | .count => a.n = 4
  | .record _ => a.n = filePathSize
  | .fileSize _ _ => a.n = 8 ∧ a.fs = true
  | .fileData _ _ fileSize _ => a.n ≤ fileSize
  | .done | .exited => True

instance (s : Sync) (a : SyncRead) : Decidable (s.Whole a) := by
  unfold Sync.Whole
  split <;> infer_instance

/-! ### Where the client is in the stream -/

section Steps
variable {src dst : Path} {contents : List FilePath} {read : FilePath → Bytes} {s t : Sync}
  {a : SyncRead}

def files (contents : List FilePath) : List FilePath := contents.filter fun e => e.isFile ≠ 0

def copies (src dst : Path) (read : FilePath → Bytes) (entries : List FilePath) :
    List (Path × Bytes) :=
  entries.map fun e => (destinationPath src dst e, read e)

def Saving (src dst : Path) (contents : List FilePath) (read : FilePath → Bytes) (s : Sync)
    (todo : List FilePath) : Prop :=
  s.contents = contents ∧ ∃ finished, files contents = finished ++ todo ∧
    s.saved = copies src dst read finished

def Sync.At (src dst : Path) (contents : List FilePath) (read : FilePath → Bytes) (s : Sync) :
    Prop :=
  match s.pc with
  | .count => s.pending = sendDirectoryContents contents ++ sendFile read contents ∧
      s.contents = [] ∧ s.saved = []
  | .record left => ∃ todo, contents = s.contents ++ todo ∧ left = todo.length ∧ todo ≠ [] ∧
      s.saved = [] ∧ s.pending = todo.flatMap FilePath.bytes ++ sendFile read contents
  | .fileSize newPath later => ∃ e todo, Saving src dst contents read s (e :: todo) ∧
      newPath = destinationPath src dst e ∧ later = todo.map (destinationPath src dst) ∧
      s.pending = (e :: todo).flatMap fun e => fileBytes (read e)
  | .fileData newPath later fileSize written => ∃ e todo rest,
      Saving src dst contents read s (e :: todo) ∧ newPath = destinationPath src dst e ∧
      later = todo.map (destinationPath src dst) ∧ read e = written ++ rest ∧
      fileSize = rest.length ∧ rest ≠ [] ∧
      s.pending = rest ++ todo.flatMap fun e => fileBytes (read e)
  | .done => Saving src dst contents read s [] ∧ s.pending = []
  | .exited => False

theorem at_nextFile {todo : List FilePath} (h : Saving src dst contents read s todo)
    (hpc : s.pc = Sync.nextFile (todo.map (destinationPath src dst)))
    (hp : s.pending = todo.flatMap fun e => fileBytes (read e)) :
    s.At src dst contents read := by
  cases todo with
  | nil =>
    simp only [Sync.At, hpc, List.map_nil, Sync.nextFile]
    exact ⟨h, hp⟩
  | cons e todo =>
    simp only [Sync.At, hpc, List.map_cons, Sync.nextFile]
    exact ⟨e, todo, h, rfl, rfl, hp⟩

theorem Saving.save {e : FilePath} {todo : List FilePath}
    (h : Saving src dst contents read s (e :: todo)) (pending : Bytes) :
    Saving src dst contents read (Sync.save { s with pending := pending }
      (destinationPath src dst e) (todo.map (destinationPath src dst)) (read e)) todo := by
  obtain ⟨hcontents, finished, hfiles, hsaved⟩ := h
  refine ⟨hcontents, finished ++ [e], by simp [hfiles], ?_⟩
  simp [Sync.save, hsaved, copies]

theorem count_step (hlen : contents.length < 2 ^ 31) (hpc : s.pc = .count)
    (h : s.At src dst contents read) (hw : a.n = 4) (hn : Sync.next src dst s a = some t) :
    t.At src dst contents read := by
  simp only [Sync.At, hpc] at h
  obtain ⟨hp, hcontents, hsaved⟩ := h
  have hread : recvInt 4 4 a.old s.pending = some ((contents.length : ℤ),
      contents.flatMap FilePath.bytes ++ sendFile read contents) := by
    rw [hp, sendDirectoryContents, List.append_assoc]
    exact recvInt_of_fits (by decide) _ _ (by omega) (by omega)
  simp only [Sync.next, hpc, hw, hread, Option.map_some, Option.some.injEq] at hn
  subst hn
  split
  · next hzero =>
    obtain rfl : contents = [] := List.length_eq_zero_iff.mp (by omega)
    exact ⟨⟨hcontents, [], rfl, hsaved⟩, rfl⟩
  · next hpos =>
    refine ⟨contents, ?_, rfl, List.ne_nil_of_length_pos (by omega), hsaved, rfl⟩
    simp [hcontents]

theorem record_step {left : ℕ} (hpc : s.pc = .record left) (h : s.At src dst contents read)
    (hw : a.n = filePathSize) (hn : Sync.next src dst s a = some t) :
    t.At src dst contents read := by
  simp only [Sync.At, hpc] at h
  obtain ⟨todo, hsplit, rfl, hne, hsaved, hp⟩ := h
  cases todo with
  | nil => exact (hne rfl).elim
  | cons e todo =>
    have hread : recv filePathSize filePathSize s.pending
        = some (e.bytes, todo.flatMap FilePath.bytes ++ sendFile read contents) := by
      have hbytes : e.bytes ≠ [] :=
        List.ne_nil_of_length_pos (by rw [FilePath.bytes_length]; decide)
      have hwhole := recv_whole hbytes e.bytes_length.le
        (todo.flatMap FilePath.bytes ++ sendFile read contents)
      rw [hp, List.flatMap_cons, List.append_assoc]
      rwa [FilePath.bytes_length] at hwhole
    simp only [Sync.next, hpc, hw, hread, Option.map_some, Option.some.injEq,
      FilePath.overwrite_bytes] at hn
    subst hn
    split
    · next hmore =>
      refine ⟨todo, by simp [hsplit], by simp, ?_, hsaved, rfl⟩
      exact List.ne_nil_of_length_pos (by simpa using hmore)
    · next hlast =>
      obtain rfl : todo = [] := List.length_eq_zero_iff.mp (by simpa using hlast)
      have hall : s.contents ++ [e] = contents := hsplit.symm
      have hsaving : Saving src dst contents read { s with
          pending := sendFile read contents
          contents := s.contents ++ [e]
          pc := Sync.nextFile (newPaths src dst (s.contents ++ [e])) } (files contents) :=
        ⟨hall, [], rfl, hsaved⟩
      exact at_nextFile hsaving (by rw [hall]; rfl) rfl

theorem fileSize_step {newPath : Path} {later : List Path}
    (hsmall : ∀ e ∈ files contents, (read e).length < 2 ^ 31) (hpc : s.pc = .fileSize newPath later)
    (h : s.At src dst contents read) (hw : a.n = 8 ∧ a.fs = true)
    (hn : Sync.next src dst s a = some t) : t.At src dst contents read := by
  simp only [Sync.At, hpc] at h
  obtain ⟨e, todo, hsaving, rfl, rfl, hp⟩ := h
  obtain ⟨finished, hfiles, -⟩ := hsaving.2
  have he := hsmall e (by rw [hfiles]; simp)
  have hread : recvInt 8 8 a.old s.pending = some (((read e).length : ℤ),
      read e ++ todo.flatMap fun e => fileBytes (read e)) := by
    rw [hp, List.flatMap_cons, fileBytes, List.append_assoc, wrapInt_of_fits (by omega) (by omega)]
    exact recvInt_of_fits (by decide) _ _ (by omega) (by omega)
  simp only [Sync.next, hpc, hw.1, hw.2, hread, Option.map_some, Option.some.injEq, if_true] at hn
  subst hn
  split
  · next hpos =>
    exact ⟨e, todo, read e, hsaving, rfl, rfl, rfl, rfl, List.ne_nil_of_length_pos (by omega), rfl⟩
  · next hzero =>
    have hempty : read e = [] := List.length_eq_zero_iff.mp (by omega)
    have hsave := hsaving.save (todo.flatMap fun e => fileBytes (read e))
    rw [hempty] at hsave ⊢
    exact at_nextFile hsave rfl rfl

theorem fileData_step {newPath : Path} {later : List Path} {fileSize : ℤ} {written : Bytes}
    (hpc : s.pc = .fileData newPath later fileSize written)
    (h : s.At src dst contents read) (hw : a.n ≤ fileSize)
    (hn : Sync.next src dst s a = some t) : t.At src dst contents read := by
  simp only [Sync.At, hpc] at h
  obtain ⟨e, todo, rest, hsaving, rfl, rfl, hwritten, rfl, -, hp⟩ := h
  simp only [Sync.next, hpc, hp] at hn
  obtain ⟨⟨got, pending⟩, hr, rfl⟩ := Option.map_eq_some_iff.mp hn
  obtain ⟨tail, rfl, hlen, -, rfl⟩ := recv_within (by omega) hr
  have hsize : ((got ++ tail).length : ℤ) - a.n = tail.length := by
    rw [List.length_append, ← hlen]; push_cast; omega
  simp only [hsize]
  split
  · next hpos =>
    exact ⟨e, todo, tail, hsaving, rfl, rfl, by rw [hwritten, List.append_assoc], rfl,
      List.ne_nil_of_length_pos (by omega), rfl⟩
  · next hzero =>
    obtain rfl : tail = [] := List.length_eq_zero_iff.mp (by omega)
    rw [List.append_nil] at hwritten
    rw [← hwritten]
    exact at_nextFile (hsaving.save _) rfl rfl

theorem sync_inductive (hlen : contents.length < 2 ^ 31)
    (hsmall : ∀ e ∈ files contents, (read e).length < 2 ^ 31) :
    (sync src dst contents read).Inductive Sync.Whole (Sync.At src dst contents read) where
  base s hs := by
    obtain ⟨hp, hcontents, hsaved, hpc⟩ := hs
    simp only [Sync.At, hpc]
    exact ⟨hp, hcontents, hsaved⟩
  keep s a t h hw hn := by
    cases hpc : s.pc with
    | count =>
      simp only [Sync.Whole, hpc] at hw
      exact count_step hlen hpc h hw hn
    | record left =>
      simp only [Sync.Whole, hpc] at hw
      exact record_step hpc h hw hn
    | fileSize newPath later =>
      simp only [Sync.Whole, hpc] at hw
      exact fileSize_step hsmall hpc h hw hn
    | fileData newPath later fileSize written =>
      simp only [Sync.Whole, hpc] at hw
      exact fileData_step hpc h hw hn
    | done => simp [sync, Sync.next, hpc] at hn
    | exited => simp [sync, Sync.next, hpc] at hn

theorem at_continues (h : s.At src dst contents read) (hp : s.pending ≠ []) :
    ∃ a t, s.Whole a ∧ Sync.next src dst s a = some t := by
  suffices hsome : ∃ a, s.Whole a ∧ (Sync.next src dst s a).isSome = true by
    obtain ⟨a, ha, hn⟩ := hsome
    obtain ⟨t, ht⟩ := Option.isSome_iff_exists.mp hn
    exact ⟨a, t, ha, ht⟩
  cases hpc : s.pc with
  | count =>
    simp only [Sync.At, hpc] at h
    have hlen : 4 ≤ s.pending.length := by simp [h.1, sendDirectoryContents]
    refine ⟨⟨4, 0, .ofPath [] false, true⟩, by simp [Sync.Whole, hpc], ?_⟩
    simp [Sync.next, hpc, recvInt_isSome, hlen]
  | record left =>
    simp only [Sync.At, hpc] at h
    obtain ⟨todo, -, -, hne, -, hpending⟩ := h
    have hlen : filePathSize ≤ s.pending.length := by
      cases todo with
      | nil => exact (hne rfl).elim
      | cons e todo => simp [hpending]
    refine ⟨⟨filePathSize, 0, .ofPath [] false, true⟩, by simp [Sync.Whole, hpc], ?_⟩
    simp [Sync.next, hpc, recv_isSome (by decide : 0 < filePathSize) le_rfl hlen]
  | fileSize newPath later =>
    simp only [Sync.At, hpc] at h
    obtain ⟨e, todo, -, -, -, hpending⟩ := h
    have hlen : 8 ≤ s.pending.length := by simp [hpending, fileBytes]
    refine ⟨⟨8, 0, .ofPath [] false, true⟩, by simp [Sync.Whole, hpc], ?_⟩
    simp [Sync.next, hpc, recvInt_isSome, hlen]
  | fileData newPath later fileSize written =>
    simp only [Sync.At, hpc] at h
    obtain ⟨e, todo, rest, -, -, -, -, rfl, hne, -⟩ := h
    have hpos := List.length_pos_iff.mpr hne
    refine ⟨⟨1, 0, .ofPath [] false, true⟩, by simp only [Sync.Whole, hpc]; omega, ?_⟩
    simp [Sync.next, hpc, recv_isSome one_pos (by decide : 1 ≤ bufferSize)
      (List.length_pos_iff.mpr hp)]
  | done =>
    simp only [Sync.At, hpc] at h
    exact (hp h.2).elim
  | exited =>
    simp only [Sync.At, hpc] at h

end Steps

/-- When integers and records arrive whole and no read of data goes past its
file, the client gets the server's entries and saves each file under its own
path. -/
theorem sync_recovers (src dst : Path) (contents : List FilePath) (read : FilePath → Bytes)
    (hlen : contents.length < 2 ^ 31) (hsmall : ∀ e ∈ files contents, (read e).length < 2 ^ 31)
    (s : Sync) (hr : (sync src dst contents read).Reaches Sync.Whole s) :
    s.contents <+: contents ∧ s.saved <+: copies src dst read (files contents) ∧
    (∀ newPath later fileSize written, s.pc = .fileData newPath later fileSize written →
      ∃ e ∈ files contents, newPath = destinationPath src dst e ∧ written <+: read e) ∧
    (s.pending = [] → s.pc = .done ∧ s.contents = contents ∧
      s.saved = copies src dst read (files contents)) ∧
    (s.pending ≠ [] → ∃ a t, s.Whole a ∧ Sync.next src dst s a = some t) := by
  have h := (sync_inductive hlen hsmall).holds hr
  have hsaved : ∀ todo, Saving src dst contents read s todo →
      s.contents <+: contents ∧ s.saved <+: copies src dst read (files contents) := by
    rintro todo ⟨hcontents, finished, hfiles, hsaved⟩
    refine ⟨hcontents ▸ List.prefix_refl _, ?_⟩
    rw [hsaved, hfiles]
    exact (List.prefix_append finished todo).map _
  have hcont := at_continues h
  cases hpc : s.pc with
  | count =>
    simp only [Sync.At, hpc] at h
    obtain ⟨hp, hcontents, hs⟩ := h
    have hne : s.pending ≠ [] := List.ne_nil_of_length_pos (by simp [hp, sendDirectoryContents])
    exact ⟨by simp [hcontents], by simp [hs], by simp, fun he => (hne he).elim, hcont⟩
  | record left =>
    simp only [Sync.At, hpc] at h
    obtain ⟨todo, hsplit, -, htodo, hs, hp⟩ := h
    have hne : s.pending ≠ [] := by
      cases todo with
      | nil => exact (htodo rfl).elim
      | cons e todo =>
        exact List.ne_nil_of_length_pos (by simp [hp, filePathSize, maxPathLength])
    exact ⟨⟨todo, hsplit.symm⟩, by simp [hs], by simp, fun he => (hne he).elim, hcont⟩
  | fileSize newPath later =>
    simp only [Sync.At, hpc] at h
    obtain ⟨e, todo, hsaving, -, -, hp⟩ := h
    have hne : s.pending ≠ [] := List.ne_nil_of_length_pos (by simp [hp, fileBytes])
    exact ⟨(hsaved _ hsaving).1, (hsaved _ hsaving).2, by simp, fun he => (hne he).elim, hcont⟩
  | fileData newPath later fileSize written =>
    simp only [Sync.At, hpc] at h
    obtain ⟨e, todo, rest, hsaving, rfl, -, hwritten, -, hrest, hp⟩ := h
    have hne : s.pending ≠ [] := by simp [hp, hrest]
    refine ⟨(hsaved _ hsaving).1, (hsaved _ hsaving).2, ?_, fun he => (hne he).elim, hcont⟩
    rintro newPath' later' fileSize' written' heq
    cases heq
    obtain ⟨finished, hfiles, -⟩ := hsaving.2
    exact ⟨e, by rw [hfiles]; simp, rfl, ⟨rest, hwritten.symm⟩⟩
  | done =>
    simp only [Sync.At, hpc] at h
    obtain ⟨hsaving, -⟩ := h
    refine ⟨(hsaved _ hsaving).1, (hsaved _ hsaving).2, by simp, fun _ => ?_, hcont⟩
    obtain ⟨hcontents, finished, hfiles, hs⟩ := hsaving
    rw [List.append_nil] at hfiles
    exact ⟨rfl, hcontents, by rw [hs, hfiles]⟩
  | exited =>
    simp only [Sync.At, hpc] at h

def twoFiles : List FilePath := [.ofPath (utf8 "s/a") true, .ofPath (utf8 "s/b") true]

def oneByte (e : FilePath) : Bytes := (cstr e.path).drop 2

def Sync.startOn (contents : List FilePath) (read : FilePath → Bytes) : Sync where
  pending := sendDirectoryContents contents ++ sendFile read contents
  contents := []
  saved := []
  pc := .count

theorem Sync.startOn_start (src dst : Path) (contents : List FilePath) (read : FilePath → Bytes) :
    (sync src dst contents read).start (Sync.startOn contents read) := ⟨rfl, rfl, rfl, rfl⟩

def SyncRead.ofLength (n : ℕ) : SyncRead := ⟨n, 0, .ofPath [] false, true⟩

theorem twoFiles_recovered : ∃ s,
    (sync (utf8 "s") (utf8 "c") twoFiles oneByte).Reaches Sync.Whole s ∧
    s.saved = [(utf8 "c/a", utf8 "a"), (utf8 "c/b", utf8 "b")] := by
  have hrun : (((sync (utf8 "s") (utf8 "c") twoFiles oneByte).guarded Sync.Whole).run
      (Sync.startOn twoFiles oneByte)
      ([4, 1028, 1028, 8, 1, 8, 1].map SyncRead.ofLength)).map Sync.pending = some [] := by
    decide +kernel
  obtain ⟨s, hs, hempty⟩ := Option.map_eq_some_iff.mp hrun
  have hr := Machine.Reaches.run (.start (Sync.startOn_start _ _ _ _)) _ hs
  have h := sync_recovers (utf8 "s") (utf8 "c") twoFiles oneByte (by decide) (by decide +kernel) s
    hr
  refine ⟨s, hr, (h.2.2.2.1 hempty).2.2.trans ?_⟩
  decide +kernel

def SyncRecovers (src dst : Path) : Prop :=
  ∀ contents read, contents.length < 2 ^ 31 → ∀ s,
    (sync src dst contents read).Reaches (fun _ a => a.fs = true) s → s.pending = [] →
    s.pc = .done ∧ s.contents = contents ∧ s.saved = copies src dst read (files contents)

/-- A read for the data of the first file that returns all there is: the size
header and the byte of the second file end up in the first. -/
theorem second_file_swallowed : ¬ SyncRecovers (utf8 "s") (utf8 "c") := by
  intro h
  have hrun : (((sync (utf8 "s") (utf8 "c") twoFiles oneByte).guarded
      fun _ a => a.fs = true).run (Sync.startOn twoFiles oneByte)
      ([4, 1028, 1028, 8, 10].map SyncRead.ofLength)).map (fun s => (s.pending, s.saved.length))
      = some ([], 1) := by decide +kernel
  obtain ⟨s, hs, hf⟩ := Option.map_eq_some_iff.mp hrun
  obtain ⟨hempty, hlen⟩ := Prod.mk.inj hf
  have hr := Machine.Reaches.run (.start (Sync.startOn_start _ _ _ _)) _ hs
  have hsaved := (h twoFiles oneByte (by decide) s hr hempty).2.2
  rw [hsaved, copies, List.length_map] at hlen
  exact absurd hlen (by decide +kernel)

end AdvancedCProjects.Bibak
