import AdvancedCProjects.Bibak.Sync

/-!
# The size in front of the data (BibakBOXClient.c:290-350, BibakBOXServer.c:175-209)

`updateDetected` and `sendFile` announce the size that `getFileSize` returns,
then open the file and send what `fread` delivers. Here each system call may
fail, and the file may change between the calls. A send that succeeds sends all
it was given.
-/

namespace AdvancedCProjects.Bibak
open Base

inductive Ended where
  | returned
  | exited
  deriving DecidableEq

/-- What the calls return: the size `stat` finds, how many of the sends in front of
the data succeed, the pieces `fread` delivers, and how many of them are sent. -/
structure Calls where
  stat : Option ℕ
  sends : ℕ
  fopen : Option (List Bytes)
  dataSends : ℕ

def Calls.read (c : Calls) : Bytes := (c.fopen.getD []).flatten

structure Sent where
  header : List Bytes
  data : List Bytes
  ended : Ended

def Sent.bytes (s : Sent) : Bytes := s.header.flatten ++ s.data.flatten

/-- `getFileSize` in terms of `stat`. -/
def statSize : Option ℕ → ℤ
  | some size => wrapInt 4 size
  | none => -1

theorem statSize_content (f : Option Inode) :
    statSize (f.map fun f => f.content.length) = getFileSize f := by
  cases f <;> rfl

namespace Frames

/-- `header` is sent field by field; a send that fails ends the function. `failed`
is what it does when `fopen` fails. -/
def transmit (header : List Bytes) (failed : Ended) (c : Calls) : Sent :=
  if c.sends < header.length then ⟨header.take c.sends, [], .returned⟩
  else match c.fopen with
    | none => ⟨header, [], failed⟩
    | some pieces =>
      if c.dataSends < pieces.length then ⟨header, pieces.take c.dataSends, .exited⟩
      else ⟨header, pieces, .returned⟩

def updateHeader (filePath basePath : Path) (fileSize : ℤ) : List Bytes :=
  let newPath := removeBasePath filePath basePath
  [encodeInt 4 Message.updateTag.length, Message.updateTag, encodeInt 8 fileSize,
    encodeInt 4 newPath.length, newPath]

def updateDetected (filePath basePath : Path) (c : Calls) : Sent :=
  transmit (updateHeader filePath basePath (statSize c.stat)) .returned c

/-- One round of the loop of `sendFile`. -/
def sendEntry (c : Calls) : Sent := transmit [encodeInt 8 (statSize c.stat)] .exited c

def sendFile : List (FilePath × Calls) → List Sent × Ended
  | [] => ([], .returned)
  | (e, c) :: rest =>
    if e.isFile = 0 then sendFile rest
    else if (sendEntry c).ended = .exited then ([sendEntry c], .exited)
    else if c.sends = 0 then ([sendEntry c], .returned)
    else (sendEntry c :: (sendFile rest).1, (sendFile rest).2)

/-! ### Frames -/

/-- All fields are there, and the announced size is the number of bytes behind them. -/
def Framed (header : ℤ → List Bytes) (s : Sent) : Prop :=
  ∃ announced : ℤ, -2 ^ 63 ≤ announced ∧ announced < 2 ^ 63 ∧ s.header = header announced ∧
    announced = s.data.flatten.length

def UpdateFramed (filePath basePath : Path) (s : Sent) : Prop :=
  Framed (updateHeader filePath basePath) s

def FileFramed (s : Sent) : Prop := Framed (fun fileSize => [encodeInt 8 fileSize]) s

/-- Every file of the list has its frame. -/
def FilesFramed (entries : List (FilePath × Calls)) (sents : List Sent) : Prop :=
  sents.length = entries.countP (fun e => e.1.isFile ≠ 0) ∧ ∀ s ∈ sents, FileFramed s

/-- `stat` succeeds, and the size, as an `int`, is what the loop reads. -/
def Steady (c : Calls) : Prop := ∃ size, c.stat = some size ∧ wrapInt 4 size = c.read.length

theorem steady_small {c : Calls} {size : ℕ} (hstat : c.stat = some size) (hsmall : size < 2 ^ 31) :
    Steady c ↔ c.read.length = size := by
  unfold Steady
  rw [hstat]
  simp only [Option.some.injEq, exists_eq_left', wrapInt_length hsmall]
  omega

theorem steady_large {c : Calls} {size : ℕ} (hstat : c.stat = some size) (hlarge : 2 ^ 31 ≤ size)
    (h : Steady c) : c.read.length ≠ size := by
  obtain ⟨size', hsize, hread⟩ := h
  obtain rfl := Option.some.inj (hstat.symm.trans hsize)
  have hlt := (wrapInt_natCast_le size).2
  omega

theorem steady_iff (c : Calls) : Steady c ↔ statSize c.stat = c.read.length := by
  unfold Steady
  cases hstat : c.stat with
  | none => simp [statSize]
  | some size => simp [statSize]

theorem statSize_range (stat : Option ℕ) : -2 ^ 31 ≤ statSize stat ∧ statSize stat < 2 ^ 31 := by
  cases stat with
  | none => exact ⟨by decide, by decide⟩
  | some size => exact wrapInt_range size

section Transmit
variable {header : ℤ → List Bytes} {fields : List Bytes} {failed : Ended} {c : Calls}

/-- A function that returns has sent what it could read, or has stopped in the header. -/
theorem transmit_returned (h : (transmit fields failed c).ended = .returned) :
    (c.sends < fields.length ∧ (transmit fields failed c).header = fields.take c.sends) ∨
    (fields.length ≤ c.sends ∧ (transmit fields failed c).header = fields ∧
      (transmit fields failed c).data.flatten = c.read) := by
  unfold transmit at h ⊢
  by_cases hsends : c.sends < fields.length
  · rw [if_pos hsends]
    exact .inl ⟨hsends, rfl⟩
  · rw [if_neg hsends] at h ⊢
    refine .inr ⟨by omega, ?_⟩
    cases hopen : c.fopen with
    | none => simp [Calls.read, hopen]
    | some pieces =>
      simp only [hopen] at h ⊢
      by_cases hdata : c.dataSends < pieces.length
      · rw [if_pos hdata] at h
        contradiction
      · rw [if_neg hdata]
        simp [Calls.read, hopen]

/-- The header tells the size apart and has always the same number of fields. -/
theorem framed_transmit {n : ℕ} (hlen : ∀ fileSize, (header fileSize).length = n)
    (hinj : ∀ a b, header a = header b → encodeInt 8 a = encodeInt 8 b)
    (h : (transmit (header (statSize c.stat)) failed c).ended = .returned) :
    Framed header (transmit (header (statSize c.stat)) failed c) ↔ n ≤ c.sends ∧ Steady c := by
  have hsize := statSize_range c.stat
  rw [steady_iff]
  constructor
  · rintro ⟨announced, hlo, hhi, hheader, hdata⟩
    rcases transmit_returned h with ⟨hshort, htake⟩ | ⟨hall, hfull, hread⟩
    · have hlength := congrArg List.length (htake.symm.trans hheader)
      simp only [List.length_take, hlen] at hlength hshort
      omega
    · have hcode := congrArg decodeInt (hinj _ _ (hfull.symm.trans hheader))
      rw [decodeInt_encodeInt, decodeInt_encodeInt, wrapInt_of_fits (by omega) (by omega),
        wrapInt_of_fits (by omega) (by omega)] at hcode
      rw [hlen] at hall
      exact ⟨hall, by rw [hcode, hdata, hread]⟩
  · rintro ⟨hsends, hsteady⟩
    rcases transmit_returned h with ⟨hshort, -⟩ | ⟨-, hfull, hread⟩
    · rw [hlen] at hshort
      omega
    · exact ⟨statSize c.stat, by omega, by omega, hfull, by rw [hread]; exact hsteady⟩

theorem updateFramed_iff (filePath basePath : Path)
    (h : (updateDetected filePath basePath c).ended = .returned) :
    UpdateFramed filePath basePath (updateDetected filePath basePath c) ↔
      5 ≤ c.sends ∧ Steady c := by
  refine framed_transmit (fun _ => rfl) (fun _ _ heq => ?_) h
  simp only [updateHeader, List.cons.injEq] at heq
  exact heq.2.2.1

theorem fileFramed_iff (h : (sendEntry c).ended = .returned) :
    FileFramed (sendEntry c) ↔ 1 ≤ c.sends ∧ Steady c :=
  framed_transmit (c := c) (fun _ => rfl) (fun _ _ heq => (List.cons.inj heq).1) h

end Transmit

theorem filesFramed_iff (entries : List (FilePath × Calls))
    (h : (sendFile entries).2 = .returned) : FilesFramed entries (sendFile entries).1 ↔
      ∀ e ∈ entries, e.1.isFile ≠ 0 → 1 ≤ e.2.sends ∧ Steady e.2 := by
  induction entries with
  | nil => simp [FilesFramed, sendFile]
  | cons entry rest ih =>
    obtain ⟨e, c⟩ := entry
    simp only [sendFile] at h ⊢
    by_cases hfile : e.isFile = 0
    · rw [if_pos hfile] at h ⊢
      have ih := ih h
      simp only [FilesFramed, List.countP_cons, hfile] at ih ⊢
      simpa [hfile] using ih
    · rw [if_neg hfile] at h ⊢
      by_cases hexit : (sendEntry c).ended = .exited
      · rw [if_pos hexit] at h
        contradiction
      · rw [if_neg hexit] at h ⊢
        have hreturned : (sendEntry c).ended = .returned := by
          cases hended : (sendEntry c).ended with
          | returned => rfl
          | exited => exact (hexit hended).elim
        have hhead := fileFramed_iff hreturned
        by_cases hsends : c.sends = 0
        · -- the size was not sent, and the files behind it are not sent either
          rw [if_pos hsends]
          refine ⟨fun hframed => ?_, fun hall => ?_⟩
          · have hone := (hhead.mp (hframed.2 _ (List.mem_singleton_self _))).1
            omega
          · have hone := (hall (e, c) List.mem_cons_self hfile).1
            dsimp only at hone
            omega
        · rw [if_neg hsends] at h ⊢
          have ih := ih h
          simp only [FilesFramed, List.length_cons, List.countP_cons, List.forall_mem_cons,
            ne_eq, hfile, not_false_eq_true, decide_true, if_true, Nat.add_right_cancel_iff,
            forall_const] at ih ⊢
          rw [hhead, ← ih]
          tauto

/-! ### Files that nobody touches -/

/-- Every call succeeds and finds the same content. -/
structure Undisturbed (content : Bytes) (sends : ℕ) (c : Calls) : Prop where
  stat : c.stat = some content.length
  sends_le : sends ≤ c.sends
  fopen : ∃ pieces, c.fopen = some pieces ∧ pieces.flatten = content ∧ pieces.length ≤ c.dataSends

theorem transmit_undisturbed {content : Bytes} {c : Calls} {fields : List Bytes} {failed : Ended}
    (h : Undisturbed content fields.length c) :
    (transmit fields failed c).bytes = fields.flatten ++ content ∧
      (transmit fields failed c).ended = .returned := by
  obtain ⟨pieces, hopen, hcontent, hdata⟩ := h.fopen
  have hsends := h.sends_le
  rw [transmit, if_neg (by omega)]
  simp only [hopen]
  rw [if_neg (by omega)]
  exact ⟨by rw [Sent.bytes, hcontent], rfl⟩

theorem updateDetected_bytes {filePath basePath : Path} {f : Inode} {c : Calls}
    (h : Undisturbed f.content 5 c) : (updateDetected filePath basePath c).bytes
      = (Bibak.updateDetected filePath basePath (some f)).bytes := by
  have hsize : statSize c.stat = getFileSize (some f) := by
    rw [h.stat]
    exact statSize_content (some f)
  have hbytes : (updateDetected filePath basePath c).bytes
      = (updateHeader filePath basePath (statSize c.stat)).flatten ++ f.content :=
    (transmit_undisturbed h).1
  rw [hbytes, hsize]
  simp [updateHeader, Bibak.updateDetected, Message.bytes, Message.tag, Message.body,
    Message.pathBytes, List.append_assoc]

theorem sendFile_bytes (read : FilePath → Bytes) (entries : List (FilePath × Calls))
    (h : ∀ e ∈ entries, e.1.isFile ≠ 0 → Undisturbed (read e.1) 1 e.2) :
    (sendFile entries).1.flatMap Sent.bytes = Bibak.sendFile read (entries.map Prod.fst) ∧
      (sendFile entries).2 = .returned := by
  induction entries with
  | nil => exact ⟨rfl, rfl⟩
  | cons entry rest ih =>
    obtain ⟨e, c⟩ := entry
    have ih := ih fun e he => h e (List.mem_cons_of_mem _ he)
    simp only [sendFile]
    by_cases hfile : e.isFile = 0
    · rw [if_pos hfile]
      simpa [Bibak.sendFile, hfile] using ih
    · have hc := h (e, c) List.mem_cons_self hfile
      have hsends := hc.sends_le
      have hbytes : (sendEntry c).bytes = [encodeInt 8 (statSize c.stat)].flatten ++ read e :=
        (transmit_undisturbed hc).1
      have hended : (sendEntry c).ended = .returned := (transmit_undisturbed hc).2
      rw [if_neg hfile, if_neg (by rw [hended]; nofun), if_neg (by dsimp only at hsends; omega)]
      refine ⟨?_, ih.2⟩
      have hhead : (sendEntry c).bytes = fileBytes (read e) := by
        rw [hbytes, hc.stat]
        simp [fileBytes, statSize]
      rw [List.flatMap_cons, hhead, ih.1]
      simp [Bibak.sendFile, hfile]

/-! ### The announced size -/

/-- A function that returns has announced the size of the data exactly when the
sends in front succeed and `stat`, as an `int`, finds what the loop then reads. -/
theorem announced_exact_iff (filePath basePath : Path) (c : Calls)
    (entries : List (FilePath × Calls)) :
    ((updateDetected filePath basePath c).ended = .returned →
      (UpdateFramed filePath basePath (updateDetected filePath basePath c) ↔
        5 ≤ c.sends ∧ Steady c)) ∧
    ((sendFile entries).2 = .returned →
      (FilesFramed entries (sendFile entries).1 ↔
        ∀ e ∈ entries, e.1.isFile ≠ 0 → 1 ≤ e.2.sends ∧ Steady e.2)) :=
  ⟨updateFramed_iff filePath basePath, filesFramed_iff entries⟩

def twoPieces : Calls := ⟨some 3, 5, some [[97, 98], [99]], 2⟩

theorem twoPieces_framed :
    UpdateFramed (utf8 "w/a") watchedDir (updateDetected (utf8 "w/a") watchedDir twoPieces) ∧
    FilesFramed [(.ofPath (utf8 "s/a") true, twoPieces)]
      (sendFile [(.ofPath (utf8 "s/a") true, twoPieces)]).1 := by
  have hsteady : Steady twoPieces := ⟨3, rfl, by decide⟩
  have hexact := announced_exact_iff (utf8 "w/a") watchedDir twoPieces
    [(.ofPath (utf8 "s/a") true, twoPieces)]
  refine ⟨(hexact.1 (by decide)).mpr ⟨by decide, hsteady⟩, ?_⟩
  refine (hexact.2 (by decide)).mpr fun e he _ => ?_
  obtain rfl := List.mem_singleton.mp he
  exact ⟨by decide, hsteady⟩

def AnnouncedExact : Prop :=
  (∀ filePath basePath c, (updateDetected filePath basePath c).ended = .returned →
    UpdateFramed filePath basePath (updateDetected filePath basePath c)) ∧
  ∀ entries, (sendFile entries).2 = .returned → FilesFramed entries (sendFile entries).1

/-- The size of a file of one byte is announced, and `fopen` fails. -/
theorem fopen_unannounced : ¬ AnnouncedExact := by
  intro h
  have hframed := h.1 (utf8 "w/a") watchedDir ⟨some 1, 5, none, 0⟩ (by decide)
  obtain ⟨-, size, hstat, hread⟩ := (updateFramed_iff _ _ (by decide)).mp hframed
  obtain rfl := Option.some.inj hstat
  exact absurd hread (by decide)

end Frames
end AdvancedCProjects.Bibak
