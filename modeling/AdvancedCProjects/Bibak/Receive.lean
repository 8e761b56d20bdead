import AdvancedCProjects.Base.Incoming
import AdvancedCProjects.Bibak.Pool
import AdvancedCProjects.Bibak.Sync

/-!
# The data loops (BibakBOXClient.c:526-537, BibakBOXServer.c:267-278)

The loops of `saveFile` and `handle_update` with everything a TCP connection can
give to `recv`. They compare the result with -1 only, as a `size_t`; the loop over
the file name in front of the second one ends the process at 0 as well.
-/

namespace AdvancedCProjects.Bibak
open Base

namespace Receive

/-- `fileSize` is what is left of the announced size. -/
inductive DataLoop where
  | receiving (fileSize : Int64) (file : Bytes)
  | exited

namespace DataLoop

/-- One turn. The unsigned result is subtracted from the signed size. -/
def body : DataLoop → RecvResult → DataLoop
  | exited, _ => exited
  | receiving fileSize file, r =>
    if 0 < fileSize then
      match r with
      | .error => exited
      | .bytes got => receiving (fileSize - Int64.ofNat got.length) (file ++ got)
    else receiving fileSize file

def Running : DataLoop → Prop
  | receiving fileSize _ => 0 < fileSize
  | exited => False

def left : DataLoop → ℤ
  | receiving fileSize _ => fileSize.toInt
  | exited => 0

end DataLoop

def dataLoop : RecvLoop DataLoop where
  running := DataLoop.Running
  body := DataLoop.body

/-- The loop of the client. -/
def saveFile : RecvLoop DataLoop := dataLoop

/-- The loop of the server. -/
def handleUpdate : RecvLoop DataLoop := dataLoop

theorem toInt_sub {fileSize : Int64} (h : 0 < fileSize) {n : ℕ} (hn : n ≤ bufferSize) :
    (fileSize - Int64.ofNat n).toInt = fileSize.toInt - n := by
  have hpos : 0 < fileSize.toInt := by simpa [Int64.lt_iff_toInt_lt] using h
  have hhi := fileSize.toInt_lt
  have hsmall : n ≤ 1024 := hn
  have hcast : (Int64.ofNat n).toInt = n := Int64.toInt_ofNat_of_lt (by omega)
  rw [Int64.toInt_sub, hcast]
  exact Int.bmod_eq_of_le (by omega) (by omega)

theorem dataLoop_counts : dataLoop.Counts bufferSize DataLoop.left where
  bytes s got hrun hfits := by
    cases s with
    | exited => exact hrun.elim
    | receiving fileSize file =>
      have hpos : 0 < fileSize := hrun
      have hsub := toInt_sub hpos hfits
      simp only [dataLoop, DataLoop.body, if_pos hpos, DataLoop.Running, DataLoop.left, hsub,
        and_true]
      rw [Int64.lt_iff_toInt_lt, hsub]
      rfl
  error s hrun := by
    cases s with
    | exited => exact hrun.elim
    | receiving fileSize file =>
      have hpos : 0 < fileSize := hrun
      simp [dataLoop, DataLoop.body, if_pos hpos, DataLoop.Running]
  ended s r hrun := by
    cases s with
    | exited => exact hrun
    | receiving fileSize file =>
      have hneg : ¬ 0 < fileSize := hrun
      simpa [dataLoop, DataLoop.body, if_neg hneg, DataLoop.Running] using hneg

theorem running_iff (fileSize : Int64) (file : Bytes) :
    dataLoop.running (.receiving fileSize file) ↔ 0 < DataLoop.left (.receiving fileSize file) :=
  Int64.lt_iff_toInt_lt

/-! ### The loops inside the two programs -/

def resumeUpdate (s : Service) (fileName : Path) : DataLoop → Service
  | .receiving fileSize file =>
    if 0 < fileSize then { s with pc := .updateData fileName fileSize.toInt file }
    else s.done (.update fileName file)
  | .exited => { s with pc := .exited }

def resumeSave (s : Sync) (newPath : Path) (later : List Path) : DataLoop → Sync
  | .receiving fileSize file =>
    if 0 < fileSize then { s with pc := .fileData newPath later fileSize.toInt file }
    else s.save newPath later file
  | .exited => { s with pc := .exited }

section Inside
variable {fileSize : Int64} {file got rest : Bytes} {s : Service} {fileName : Path}

theorem body_bytes (file got : Bytes) (hpos : 0 < fileSize) :
    DataLoop.body (.receiving fileSize file) (.bytes got) =
      .receiving (fileSize - Int64.ofNat got.length) (file ++ got) := by
  simp only [DataLoop.body, if_pos hpos]

theorem sub_pos_iff (hpos : 0 < fileSize) {n : ℕ} (hn : n ≤ bufferSize) :
    0 < fileSize - Int64.ofNat n ↔ fileSize.toInt - n > 0 := by
  rw [Int64.lt_iff_toInt_lt, toInt_sub hpos hn]
  rfl

theorem openUpdate_eq (fileName : Bytes) :
    s.openUpdate fileSize.toInt fileName true =
      resumeUpdate s (cstr fileName) (.receiving fileSize []) := by
  simp only [Service.openUpdate, resumeUpdate, if_true, Int64.lt_iff_toInt_lt, gt_iff_lt]
  rfl

/-- A `recv` that brings bytes is a turn of the loop. -/
theorem update_turn {basePath : Path} {a : Recv} (hpos : 0 < fileSize)
    (hpc : s.pc = .updateData fileName fileSize.toInt file)
    (hr : recv bufferSize a.n s.pending = some (got, rest)) :
    s.next basePath a = some (resumeUpdate { s with pending := rest } fileName
      (handleUpdate.body (.receiving fileSize file) (.bytes got))) := by
  obtain ⟨-, hn, hlen⟩ := recv_bounds hr
  have hbody := body_bytes file got hpos
  have hsub := toInt_sub hpos hn
  have hiff := sub_pos_iff hpos hn
  rw [hlen] at hbody
  simp only [Service.next, hpc, hr, Option.map_some, handleUpdate, dataLoop, hbody, resumeUpdate,
    hiff, hsub]

/-- So is one that brings none: the thread stays where it is. -/
theorem update_eof {basePath : Path} {a : Recv} (hpos : 0 < fileSize)
    (hpc : s.pc = .updateData fileName fileSize.toInt file) :
    s.eof basePath a = resumeUpdate s fileName
      (handleUpdate.body (.receiving fileSize file) (.bytes [])) := by
  have hbody := body_bytes file [] hpos
  have hzero : fileSize - Int64.ofNat 0 = fileSize := by simp
  simp only [handleUpdate, dataLoop, hbody, List.length_nil, List.append_nil, hzero, resumeUpdate,
    if_pos hpos, Service.eof, hpc]
  rw [← hpc]

theorem save_turn {src dst newPath : Path} {later : List Path} {s : Sync} {a : SyncRead}
    (hpos : 0 < fileSize) (hpc : s.pc = .fileData newPath later fileSize.toInt file)
    (hr : recv bufferSize a.n s.pending = some (got, rest)) :
    s.next src dst a = some (resumeSave { s with pending := rest } newPath later
      (saveFile.body (.receiving fileSize file) (.bytes got))) := by
  obtain ⟨-, hn, hlen⟩ := recv_bounds hr
  have hbody := body_bytes file got hpos
  have hsub := toInt_sub hpos hn
  have hiff := sub_pos_iff hpos hn
  rw [hlen] at hbody
  simp only [Sync.next, hpc, hr, Option.map_some, saveFile, dataLoop, hbody, resumeSave, hiff,
    hsub]

end Inside

/-- The loop is left or the process ends, and no turn receives nothing. -/
def EndsWell (L : RecvLoop DataLoop) (fileSize : Int64) (c : Incoming bufferSize) : Prop :=
  L.Ends (.receiving fileSize []) c ∧ ¬ L.Spins (.receiving fileSize []) c

/-- The loops end exactly if the peer sends as many bytes as it has announced
before it closes the connection, or `recv` fails. -/
theorem dataLoops_end_iff (fileSize : Int64) (c : Incoming bufferSize) :
    (EndsWell saveFile fileSize c ∧ EndsWell handleUpdate fileSize c) ↔
      fileSize.toInt ≤ 0 ∨ ∃ n, c.result n = .error ∨ fileSize.toInt ≤ c.received n := by
  have hrun := running_iff fileSize []
  have hends := dataLoop_counts.ends_iff (c := c) hrun
  have hspins := dataLoop_counts.ends_iff_not_spins (c := c) hrun
  have hwell : EndsWell dataLoop fileSize c ↔ dataLoop.Ends (.receiving fileSize []) c := by
    rw [EndsWell, ← hspins, and_self]
  simp only [saveFile, handleUpdate, and_self, hwell]
  exact hends

def cutShort : Incoming bufferSize := Incoming.whole (utf8 "abcd") (by decide)

def LoopsEnd : Prop :=
  ∀ (fileSize : Int64) (c : Incoming bufferSize),
    EndsWell saveFile fileSize c ∧ EndsWell handleUpdate fileSize c

theorem cutShort_spins : ¬ LoopsEnd := by
  intro h
  have hmore : (0 : Int64) < 10 - Int64.ofNat 4 := by decide
  have hspin : handleUpdate.Spins (.receiving 10 []) cutShort := ⟨1, hmore, rfl⟩
  exact (h 10 cutShort).2.2 hspin

end Receive
end AdvancedCProjects.Bibak
