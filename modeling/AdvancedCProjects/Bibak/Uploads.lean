import AdvancedCProjects.Base.Bytes
import AdvancedCProjects.Base.File
import AdvancedCProjects.Base.Lists
import AdvancedCProjects.Base.Machine

/-!
# Two clients change one file (BibakBOXServer.c:223-283)

`handle_update` opens the file with "wb", writes what it receives at its own
offset and closes. Nothing keeps the handlers of two clients apart: `mutex`,
`condition` and `file_lock` are declared and never used.
-/

namespace AdvancedCProjects.Bibak
open Base

inductive UploadPhase where
  | waiting
  | writing (offset : ℕ)
  | closed
  deriving DecidableEq

structure Upload where
  payload : Bytes
  phase : UploadPhase
  deriving DecidableEq

/-- One path and the calls of `handle_update` for it. -/
structure Uploads where
  file : Bytes
  uploads : List Upload
  deriving DecidableEq

/-- `write i size` writes the next `size` bytes of upload `i`. -/
inductive UploadAction where
  | fopen (i : ℕ)
  | write (i size : ℕ)
  | fclose (i : ℕ)

namespace Uploads

def next (s : Uploads) : UploadAction → Option Uploads
  | .fopen i =>
    match s.uploads[i]? with
    | some ⟨payload, .waiting⟩ => some ⟨[], s.uploads.set i ⟨payload, .writing 0⟩⟩
    | _ => none
  | .write i size =>
    match s.uploads[i]? with
    | some ⟨payload, .writing offset⟩ =>
      if 0 < size ∧ offset + size ≤ payload.length then
        some ⟨writeAt s.file offset ((payload.drop offset).take size),
          s.uploads.set i ⟨payload, .writing (offset + size)⟩⟩
      else none
    | _ => none
  | .fclose i =>
    match s.uploads[i]? with
    | some ⟨payload, .writing offset⟩ =>
      if offset = payload.length then some { s with uploads := s.uploads.set i ⟨payload, .closed⟩ }
      else none
    | _ => none

def Finished (s : Uploads) : Prop := ∀ u ∈ s.uploads, u.phase = .closed

end Uploads

def handleUpdates (payloads : List Bytes) : Machine Uploads UploadAction where
  start s := s.uploads = payloads.map fun payload => ⟨payload, .waiting⟩
  next := Uploads.next

/-- Once both are through, one of them is there whole. -/
def OneUploadKept (x y : Bytes) : Prop :=
  ∀ s, (handleUpdates [x, y]).Reachable s → s.Finished → s.file = x ∨ s.file = y

/-- `y` is `x` and zeros and at most one further byte. -/
def Extends (x y : Bytes) : Prop :=
  x.length < y.length ∧ (∀ i : ℕ, i < x.length → x[i]? = y[i]?) ∧
  ∀ i : ℕ, x.length ≤ i → i + 1 < y.length → y[i]? = some 0

def Mergeable (x y : Bytes) : Prop :=
  (x.length = y.length ∧ ∀ i j : ℕ, i < j → x[i]? ≠ y[i]? → x[j]? = y[j]?) ∨
  Extends x y ∨ Extends y x

theorem Mergeable.symm {x y : Bytes} (h : Mergeable x y) : Mergeable y x := by
  rcases h with ⟨heq, hone⟩ | hx | hy
  · exact .inl ⟨heq.symm, fun i j hij hne => (hone i j hij hne.symm).symm⟩
  · exact .inr (.inr hx)
  · exact .inr (.inl hy)

/-! ### What a mixture looks like -/

/-- The file after `y` was opened, which has written `n` bytes, while `x` had
written `a` bytes and goes on from there to `m`. -/
structure Patched (x : Bytes) (a m : ℕ) (y : Bytes) (n : ℕ) (file : Bytes) : Prop where
  from_le : a ≤ m
  length : file.length = max n (if a < m then m else 0)
  byte : ∀ i, i < file.length → (i < n ∧ file[i]? = y[i]?) ∨
    (a ≤ i ∧ i < m ∧ file[i]? = x[i]?) ∨ (n ≤ i ∧ i < a ∧ file[i]? = some 0)

section Steps
variable {x y file : Bytes} {a m n size : ℕ}

theorem slice_length (h : m + size ≤ x.length) : ((x.drop m).take size).length = size := by
  simp only [List.length_take, List.length_drop]
  omega

theorem slice_getElem? {i : ℕ} (h : i < size) : ((x.drop m).take size)[i]? = x[m + i]? := by
  rw [List.getElem?_take_of_lt h, List.getElem?_drop]

theorem writeAt_take (h : m ≤ x.length) :
    writeAt (x.take m) m ((x.drop m).take size) = x.take (m + size) := by
  have hend : (x.take m).length = m := by
    rw [List.length_take]
    exact Nat.min_eq_left h
  have hwrite := writeAt_end (x.take m) ((x.drop m).take size)
  rwa [hend, ← List.take_add] at hwrite

theorem Patched.opened (x : Bytes) (m : ℕ) (y : Bytes) : Patched x m m y 0 [] where
  from_le := Nat.le_refl m
  length := by simp
  byte i hi := absurd hi (by simp)

theorem written_byte (hpos : 0 < size) (hle : m + size ≤ x.length) (i : ℕ)
    (hi : i < (writeAt file m ((x.drop m).take size)).length) :
    (i < m ∧ (writeAt file m ((x.drop m).take size))[i]? = some (file[i]?.getD 0)) ∨
    (m ≤ i ∧ i < m + size ∧ (writeAt file m ((x.drop m).take size))[i]? = x[i]?) ∨
    (m + size ≤ i ∧ i < file.length ∧ (writeAt file m ((x.drop m).take size))[i]? = file[i]?) := by
  have hlen := slice_length hle
  have hne : (x.drop m).take size ≠ [] := List.ne_nil_of_length_pos (by omega)
  rw [writeAt_length _ _ _ hne, hlen] at hi
  rcases Nat.lt_or_ge i m with hlt | hge
  · exact .inl ⟨hlt, getElem?_writeAt_before _ _ _ _ hlt hne⟩
  · rcases Nat.lt_or_ge i (m + size) with hin | hout
    · obtain ⟨k, rfl⟩ := Nat.exists_eq_add_of_le hge
      have hk : k < ((x.drop m).take size).length := by omega
      refine .inr (.inl ⟨hge, hin, ?_⟩)
      rw [getElem?_writeAt_data _ _ _ _ hk, slice_getElem? (by omega)]
    · refine .inr (.inr ⟨hout, by omega, ?_⟩)
      exact getElem?_writeAt_after _ _ _ _ (by rw [hlen]; exact hout)

theorem Patched.write_first (h : Patched x a m y n file) (hpos : 0 < size)
    (hle : m + size ≤ x.length) :
    Patched x a (m + size) y n (writeAt file m ((x.drop m).take size)) where
  from_le := by
    have hfrom := h.from_le
    omega
  length := by
    have hlen := slice_length hle
    have hne : (x.drop m).take size ≠ [] := List.ne_nil_of_length_pos (by omega)
    have hfrom := h.from_le
    have hnow : a < m + size := by omega
    rw [writeAt_length _ _ _ hne, hlen, h.length, if_pos hnow]
    split <;> omega
  byte i hi := by
    have hfrom := h.from_le
    rcases written_byte hpos hle i hi with ⟨hlt, hbyte⟩ | ⟨hge, hin, hbyte⟩ | ⟨hout, hold, hbyte⟩
    · have hlen := h.length
      by_cases hold : i < file.length
      · rw [hbyte, List.getElem?_eq_getElem hold, Option.getD_some,
          ← List.getElem?_eq_getElem hold]
        rcases h.byte i hold with hy | ⟨hge, -, hx⟩ | hzero
        · exact .inl hy
        · exact .inr (.inl ⟨hge, by omega, hx⟩)
        · exact .inr (.inr hzero)
      · -- nothing of `x` is there yet, so the byte is in the gap behind `y`
        rw [List.getElem?_eq_none (Nat.le_of_not_lt hold)] at hbyte
        have heq : a = m := by
          by_contra hne
          rw [if_pos (by omega)] at hlen
          omega
        exact .inr (.inr ⟨by omega, by omega, hbyte⟩)
    · exact .inr (.inl ⟨by omega, hin, hbyte⟩)
    · rcases h.byte i hold with ⟨hlt, hy⟩ | ⟨-, hlt, -⟩ | ⟨-, hlt, -⟩
      · exact .inl ⟨hlt, hbyte.trans hy⟩
      · omega
      · omega

theorem Patched.write_last (h : Patched x a m y n file) (hpos : 0 < size)
    (hle : n + size ≤ y.length) :
    Patched x a m y (n + size) (writeAt file n ((y.drop n).take size)) where
  from_le := h.from_le
  length := by
    have hlen := slice_length hle
    have hne : (y.drop n).take size ≠ [] := List.ne_nil_of_length_pos (by omega)
    rw [writeAt_length _ _ _ hne, hlen, h.length]
    omega
  byte i hi := by
    rcases written_byte hpos hle i hi with ⟨hlt, hbyte⟩ | ⟨hge, hin, hbyte⟩ | ⟨hout, hold, hbyte⟩
    · have hlen := h.length
      have hold : i < file.length := by omega
      rw [hbyte, List.getElem?_eq_getElem hold, Option.getD_some, ← List.getElem?_eq_getElem hold]
      rcases h.byte i hold with ⟨-, hy⟩ | hx | ⟨hge, -, -⟩
      · exact .inl ⟨by omega, hy⟩
      · exact .inr (.inl hx)
      · omega
    · exact .inl ⟨hin, hbyte⟩
    · rcases h.byte i hold with ⟨hlt, -⟩ | ⟨hge, hlt, hx⟩ | ⟨-, hlt, hzero⟩
      · omega
      · exact .inr (.inl ⟨hge, hlt, hbyte.trans hx⟩)
      · exact .inr (.inr ⟨by omega, hlt, hbyte.trans hzero⟩)

/-- When both are through, a mixture of mergeable payloads is one of them. -/
theorem Patched.whole (h : Patched x a x.length y y.length file) (hm : Mergeable x y) :
    file = x ∨ file = y := by
  have hfrom := h.from_le
  have hlen := h.length
  have same (z : Bytes) (hz : z.length = file.length)
      (hbyte : ∀ i, i < file.length → file[i]? = z[i]?) : file = z := by
    refine List.ext_getElem? fun i => ?_
    rcases Nat.lt_or_ge i file.length with hlt | hge
    · exact hbyte i hlt
    · rw [List.getElem?_eq_none hge, List.getElem?_eq_none (by omega)]
  rcases hm with ⟨heq, hone⟩ | ⟨hlt, hpre, -⟩ | ⟨hlt, hpre, hzero⟩
  · have hsize : file.length = y.length := by split at hlen <;> omega
    have hbyte (i : ℕ) (hi : i < file.length) : file[i]? = y[i]? ∨ file[i]? = x[i]? := by
      rcases h.byte i hi with ⟨-, hy⟩ | ⟨-, -, hx⟩ | ⟨hge, -, -⟩
      · exact .inl hy
      · exact .inr hx
      · omega
    by_cases hx : ∀ i : ℕ, i < file.length → file[i]? = x[i]?
    · exact .inl (same x (by omega) hx)
    · -- the only difference is where `y` was written last
      push Not at hx
      obtain ⟨d, hd, hne⟩ := hx
      have hy := (hbyte d hd).resolve_right hne
      refine .inr (same y hsize.symm fun i hi => ?_)
      rcases hbyte i hi with hi | hi
      · exact hi
      · have hdiff : x[d]? ≠ y[d]? := fun he => hne (hy.trans he.symm)
        rcases Nat.lt_trichotomy i d with hlt | rfl | hgt
        · by_contra hother
          exact hdiff (hone i d hlt fun he => hother (hi.trans he))
        · exact hy
        · exact hi.trans (hone d i hgt hdiff)
  · -- `x` is shorter and agrees with `y` where it is written
    refine .inr (same y (by split at hlen <;> omega) fun i hi => ?_)
    rcases h.byte i hi with ⟨-, hy⟩ | ⟨-, hin, hx⟩ | ⟨hge, hin, -⟩
    · exact hy
    · exact hx.trans (hpre i hin)
    · omega
  · by_cases ha : a < x.length
    · rw [if_pos ha] at hlen
      refine .inl (same x (by omega) fun i hi => ?_)
      rcases h.byte i hi with ⟨hin, hy⟩ | ⟨-, -, hx⟩ | ⟨hge, hin, hz⟩
      · exact hy.trans (hpre i hin)
      · exact hx
      · exact hz.trans (hzero i hge (by omega)).symm
    · rw [if_neg ha] at hlen
      refine .inr (same y (by omega) fun i hi => ?_)
      rcases h.byte i hi with ⟨-, hy⟩ | ⟨hge, hin, -⟩ | ⟨hge, -, -⟩
      · exact hy
      · omega
      · omega

end Steps

/-! ### What the calls keep -/

def UploadPhase.offset (payload : Bytes) : UploadPhase → ℕ
  | waiting => 0
  | writing offset => offset
  | closed => payload.length

/-- The states of two uploads: nobody has opened the file, one has, or both have
and what the first one goes on to write is mixed in. -/
inductive Mixed (x y : Bytes) : Bytes → UploadPhase → UploadPhase → Prop where
  | none {file : Bytes} : Mixed x y file .waiting .waiting
  | first {p : UploadPhase} : p ≠ .waiting → p.offset x ≤ x.length →
    Mixed x y (x.take (p.offset x)) p .waiting
  | second {q : UploadPhase} : q ≠ .waiting → q.offset y ≤ y.length →
    Mixed x y (y.take (q.offset y)) .waiting q
  | above {file : Bytes} {p q : UploadPhase} {a : ℕ} : p ≠ .waiting → q ≠ .waiting →
    p.offset x ≤ x.length → Patched x a (p.offset x) y (q.offset y) file → Mixed x y file p q
  | below {file : Bytes} {p q : UploadPhase} {a : ℕ} : p ≠ .waiting → q ≠ .waiting →
    q.offset y ≤ y.length → Patched y a (q.offset y) x (p.offset x) file → Mixed x y file p q

/-- One call of the handler that holds the payload `x`. -/
inductive UploadMove (x file : Bytes) : UploadPhase → Bytes → UploadPhase → Prop where
  | fopen : UploadMove x file .waiting [] (.writing 0)
  | write {offset size : ℕ} : 0 < size → offset + size ≤ x.length →
    UploadMove x file (.writing offset) (writeAt file offset ((x.drop offset).take size))
      (.writing (offset + size))
  | fclose : UploadMove x file (.writing x.length) file .closed

theorem uploads_move {s t : Uploads} {a : UploadAction} (hn : s.next a = some t) :
    ∃ i x p p', s.uploads[i]? = some ⟨x, p⟩ ∧ UploadMove x s.file p t.file p' ∧
      t.uploads = s.uploads.set i ⟨x, p'⟩ ∧ (p = .waiting → a = .fopen i) := by
  cases a with
  | fopen i =>
    simp only [Uploads.next] at hn
    split at hn
    · next x hget =>
      obtain rfl := Option.some.inj hn
      exact ⟨i, x, _, _, hget, .fopen, rfl, fun _ => rfl⟩
    · contradiction
  | write i size =>
    simp only [Uploads.next] at hn
    split at hn
    · next x offset hget =>
      split at hn
      · next hsize =>
        obtain rfl := Option.some.inj hn
        exact ⟨i, x, _, _, hget, .write hsize.1 hsize.2, rfl, nofun⟩
      · contradiction
    · contradiction
  | fclose i =>
    simp only [Uploads.next] at hn
    split at hn
    · next x offset hget =>
      split at hn
      · next hend =>
        obtain rfl := Option.some.inj hn
        subst hend
        exact ⟨i, x, _, _, hget, .fclose, rfl, nofun⟩
      · contradiction
    · contradiction

section Mixed
variable {x y file file' : Bytes} {p q p' : UploadPhase}

theorem Mixed.symm (h : Mixed x y file p q) : Mixed y x file q p := by
  cases h with
  | none => exact .none
  | first hp hle => exact .second hp hle
  | second hq hle => exact .first hq hle
  | above hp hq hle hpatch => exact .below hq hp hle hpatch
  | below hp hq hle hpatch => exact .above hq hp hle hpatch

theorem Mixed.move (h : Mixed x y file p q) (hm : UploadMove x file p file' p') :
    Mixed x y file' p' q := by
  cases hm with
  | fopen =>
    cases h with
    | none => exact .first (p := .writing 0) nofun (Nat.zero_le _)
    | second hq hle => exact .below nofun hq hle (.opened y _ x)
    | first hp | above hp | below hp => exact (hp rfl).elim
  | @write offset size hpos hroom =>
    cases h with
    | first hp hle =>
      show Mixed x y (writeAt (x.take offset) offset _) _ _
      rw [writeAt_take (m := offset) hle]
      exact .first (p := .writing (offset + size)) nofun hroom
    | above hp hq hle hpatch => exact .above nofun hq hroom (hpatch.write_first hpos hroom)
    | below hp hq hle hpatch => exact .below nofun hq hle (hpatch.write_last hpos hroom)
  | fclose =>
    cases h with
    | first hp hle => exact .first (p := .closed) nofun (Nat.le_refl _)
    | above hp hq hle hpatch => exact .above nofun hq (Nat.le_refl _) hpatch
    | below hp hq hle hpatch => exact .below nofun hq hle hpatch

end Mixed

def Pair (x y : Bytes) (s : Uploads) : Prop :=
  ∃ p q, s.uploads = [⟨x, p⟩, ⟨y, q⟩] ∧ Mixed x y s.file p q

theorem pair_inductive (x y : Bytes) :
    (handleUpdates [x, y]).Inductive (fun _ _ => True) (Pair x y) where
  base s hs := ⟨.waiting, .waiting, hs, .none⟩
  keep s a t h _ hn := by
    obtain ⟨p, q, huploads, hmixed⟩ := h
    obtain ⟨i, z, r, r', hget, hmove, hset, -⟩ := uploads_move hn
    rw [huploads] at hget hset
    match i with
    | 0 =>
      obtain ⟨rfl, rfl⟩ := Upload.mk.inj (Option.some.inj hget)
      exact ⟨r', q, hset, hmixed.move hmove⟩
    | 1 =>
      obtain ⟨rfl, rfl⟩ := Upload.mk.inj (Option.some.inj hget)
      exact ⟨p, r', hset, (hmixed.symm.move hmove).symm⟩
    | i + 2 => simp at hget

/-! ### Runs that mix -/

theorem move_next {s : Uploads} {i : ℕ} {x file' : Bytes} {p p' : UploadPhase}
    (hget : s.uploads[i]? = some ⟨x, p⟩) (hm : UploadMove x s.file p file' p') :
    ∃ a, s.next a = some ⟨file', s.uploads.set i ⟨x, p'⟩⟩ := by
  cases hm with
  | fopen => exact ⟨.fopen i, by simp [Uploads.next, hget]⟩
  | @write offset size hpos hroom =>
    exact ⟨.write i size, by simp [Uploads.next, hget, hpos, hroom]⟩
  | fclose => exact ⟨.fclose i, by simp [Uploads.next, hget]⟩

section Runs
variable {x y file file' : Bytes} {p p' : UploadPhase} {u : Upload} {payloads : List Bytes}
  {offset size : ℕ}

theorem reach_move {us : List Upload} {i : ℕ} (hr : (handleUpdates payloads).Reachable ⟨file, us⟩)
    (hget : us[i]? = some ⟨x, p⟩) (hm : UploadMove x file p file' p') :
    (handleUpdates payloads).Reachable ⟨file', us.set i ⟨x, p'⟩⟩ := by
  obtain ⟨a, ha⟩ := move_next (s := ⟨file, us⟩) hget hm
  exact hr.step trivial ha

theorem reach_rest {us : List Upload} {i : ℕ} (hr : (handleUpdates payloads).Reachable ⟨file, us⟩)
    (hget : us[i]? = some ⟨x, .writing offset⟩) (hle : offset ≤ x.length) :
    (handleUpdates payloads).Reachable
      ⟨writeAt file offset (x.drop offset), us.set i ⟨x, .closed⟩⟩ := by
  by_cases hend : offset = x.length
  · subst hend
    have hnone : writeAt file x.length (x.drop x.length) = file := by simp [writeAt]
    rw [hnone]
    exact reach_move hr hget .fclose
  · have hall : (x.drop offset).take (x.length - offset) = x.drop offset :=
      List.take_of_length_le (by simp)
    have hsize : 0 < x.length - offset := by omega
    have hroom : offset + (x.length - offset) ≤ x.length := by omega
    have hwrite := reach_move hr hget (.write hsize hroom)
    rw [hall, Nat.add_sub_cancel' hle] at hwrite
    have hi := (List.getElem?_eq_some_iff.mp hget).1
    have hclose := reach_move hwrite (List.getElem?_set_self hi) .fclose
    rwa [List.set_set] at hclose

theorem reachable_swap {s : Uploads} (hr : (handleUpdates [x, y]).Reachable s) :
    ∃ u v, s.uploads = [u, v] ∧ (handleUpdates [y, x]).Reachable ⟨s.file, [v, u]⟩ := by
  induction hr with
  | start hs => exact ⟨_, _, hs, .start rfl⟩
  | step _ _ hn ih =>
    obtain ⟨u, v, huploads, hr⟩ := ih
    obtain ⟨i, z, r, r', hget, hmove, hset, -⟩ := uploads_move hn
    rw [huploads] at hget hset
    match i with
    | 0 =>
      obtain rfl := Option.some.inj hget
      exact ⟨_, _, hset, reach_move (i := 1) hr rfl hmove⟩
    | 1 =>
      obtain rfl := Option.some.inj hget
      exact ⟨_, _, hset, reach_move (i := 0) hr rfl hmove⟩
    | i + 2 => simp at hget

theorem OneUploadKept.symm (h : OneUploadKept x y) : OneUploadKept y x := by
  intro s hr hdone
  obtain ⟨u, v, huploads, hswap⟩ := reachable_swap hr
  refine (h _ hswap fun w hw => hdone w ?_).symm
  rw [huploads]
  exact List.mem_cons.mpr ((List.mem_cons.mp hw).elim (fun hv => .inr (by simp [hv]))
    fun hu => .inl (List.mem_singleton.mp hu))

/-- Both open; `y` writes `k` bytes, `x` everything, `y` the rest. -/
theorem crossed {k : ℕ} (hpos : 0 < k) (hk : k < y.length) : ∃ s,
    (handleUpdates [x, y]).Reachable s ∧ s.Finished ∧ y.length ≤ s.file.length ∧
    (∀ i, i < k → i < x.length → s.file[i]? = x[i]?) ∧
    ∀ j, k ≤ j → j < y.length → s.file[j]? = y[j]? := by
  have hstart : (handleUpdates [x, y]).Reachable ⟨[], [⟨x, .waiting⟩, ⟨y, .waiting⟩]⟩ := .start rfl
  have hfirst := reach_move (i := 0) hstart rfl .fopen
  have hboth := reach_move (i := 1) hfirst rfl .fopen
  have hpart := reach_move (i := 1) hboth rfl (.write hpos (by omega))
  have hall := reach_rest (i := 0) hpart rfl (Nat.zero_le _)
  have hdone := reach_rest (i := 1) hall rfl (by omega)
  rw [Nat.zero_add] at hdone
  have hrest : y.drop k ≠ [] := List.ne_nil_of_length_pos (by simp; omega)
  refine ⟨_, hdone, by simp [Uploads.Finished], ?_, fun i hi hx => ?_, fun j hj hy => ?_⟩
  · rw [writeAt_length _ _ _ hrest, List.length_drop]
    omega
  · rw [getElem?_writeAt_before _ _ _ _ hi hrest]
    have hbyte := getElem?_writeAt_data (writeAt [] 0 ((y.drop 0).take k)) (x.drop 0) 0 i (by simpa)
    rw [Nat.zero_add] at hbyte
    rw [hbyte]
    simp [hx]
  · obtain ⟨d, rfl⟩ := Nat.exists_eq_add_of_le hj
    rw [getElem?_writeAt_data _ _ _ _ (by simp; omega), List.getElem?_drop]

/-- `x` opens the file when `y` has written more than the length of `x`. -/
theorem gapped {k : ℕ} (hx : x.length ≤ k) (hk : k + 1 < y.length) : ∃ s,
    (handleUpdates [x, y]).Reachable s ∧ s.Finished ∧ y.length ≤ s.file.length ∧
    s.file[k]? = some 0 := by
  have hstart : (handleUpdates [x, y]).Reachable ⟨[], [⟨x, .waiting⟩, ⟨y, .waiting⟩]⟩ := .start rfl
  have hmove : UploadMove y [] (.writing 0) _ (.writing (0 + (k + 1))) :=
    .write (Nat.succ_pos k) (by omega)
  have hfirst := reach_move (i := 1) hstart rfl .fopen
  have hpart := reach_move (i := 1) hfirst rfl hmove
  have hboth := reach_move (i := 0) hpart rfl .fopen
  have hall := reach_rest (i := 0) hboth rfl (Nat.zero_le _)
  have hdone := reach_rest (i := 1) hall rfl (by omega)
  rw [Nat.zero_add] at hdone
  have hrest : y.drop (k + 1) ≠ [] := List.ne_nil_of_length_pos (by simp; omega)
  refine ⟨_, hdone, by simp [Uploads.Finished], ?_, ?_⟩
  · rw [writeAt_length _ _ _ hrest, List.length_drop]
    omega
  · rw [getElem?_writeAt_before _ _ _ _ (Nat.lt_succ_self k) hrest]
    have hend : writeAt ([] : Bytes) 0 (x.drop 0) = x := by
      simpa using writeAt_end ([] : Bytes) x
    rw [hend, List.getElem?_eq_none hx, Option.getD_none]

theorem OneUploadKept.mergeable_of_le (h : OneUploadKept x y) (hle : x.length ≤ y.length) :
    Mergeable x y := by
  have once (k : ℕ) (hx : k < x.length) (hy : k + 1 < y.length) (hne : x[k]? ≠ y[k]?) (j : ℕ)
      (hj : k < j) (hlt : j < y.length) : x[j]? = y[j]? := by
    obtain ⟨s, hr, hdone, -, hfront, hback⟩ := crossed (x := x) (Nat.succ_pos k) hy
    have hk := hfront k (Nat.lt_succ_self k) hx
    rcases h s hr hdone with hfile | hfile
    · rw [← hfile]
      exact hback j hj hlt
    · rw [hfile] at hk
      exact (hne hk.symm).elim
  rcases Nat.eq_or_lt_of_le hle with heq | hlt
  · refine .inl ⟨heq, fun i j hij hne => ?_⟩
    rcases Nat.lt_or_ge j y.length with hj | hj
    · exact once i (by omega) (by omega) hne j hij hj
    · rw [List.getElem?_eq_none (by omega), List.getElem?_eq_none hj]
  · refine .inr (.inl ⟨hlt, fun i hi => ?_, fun i hi hroom => ?_⟩)
    · by_contra hne
      have hend := once i hi (by omega) hne x.length hi hlt
      rw [List.getElem?_eq_none (Nat.le_refl _), List.getElem?_eq_getElem hlt] at hend
      contradiction
    · obtain ⟨s, hr, hdone, hlen, hzero⟩ := gapped hi hroom
      rcases h s hr hdone with hfile | hfile
      · rw [hfile] at hlen
        omega
      · rwa [hfile] at hzero

end Runs

/-! ### One after the other -/

/-- An upload opens the file only when no other one is writing. -/
def Alone (s : Uploads) : UploadAction → Prop
  | .fopen _ => ∀ u ∈ s.uploads, u.phase = .waiting ∨ u.phase = .closed
  | .write _ _ | .fclose _ => True

instance (s : Uploads) : DecidablePred (Alone s)
  | .fopen _ => inferInstanceAs (Decidable (∀ u ∈ s.uploads, _ ∨ _))
  | .write _ _ | .fclose _ => inferInstanceAs (Decidable True)

/-- The file is what the last upload to open it has written. -/
def Sequential (s : Uploads) : Prop :=
  (∀ u ∈ s.uploads, u.phase = .waiting) ∨
  ∃ (i : ℕ) (x : Bytes) (p : UploadPhase), s.uploads[i]? = some ⟨x, p⟩ ∧ p ≠ .waiting ∧
    p.offset x ≤ x.length ∧ s.file = x.take (p.offset x) ∧
    ∀ j v, j ≠ i → s.uploads[j]? = some v → v.phase = .waiting ∨ v.phase = .closed

theorem Sequential.writing {s : Uploads} (h : Sequential s) {k offset : ℕ} {x : Bytes}
    (hget : s.uploads[k]? = some ⟨x, .writing offset⟩) :
    offset ≤ x.length ∧ s.file = x.take offset ∧
    ∀ j v, j ≠ k → s.uploads[j]? = some v → v.phase = .waiting ∨ v.phase = .closed := by
  rcases h with hnone | ⟨i, z, p, hi, -, hle, hfile, hothers⟩
  · have hwaiting := hnone _ (List.mem_of_getElem? hget)
    contradiction
  · by_cases hk : k = i
    · subst hk
      obtain ⟨rfl, rfl⟩ := Upload.mk.inj (Option.some.inj (hi.symm.trans hget))
      exact ⟨hle, hfile, hothers⟩
    · rcases hothers k _ hk hget with hphase | hphase <;> contradiction

theorem sequential_inductive (payloads : List Bytes) : (handleUpdates payloads).Inductive Alone
    fun s => s.uploads.map Upload.payload = payloads ∧ Sequential s where
  base s hs := by
    have hs : s.uploads = payloads.map fun payload => ⟨payload, .waiting⟩ := hs
    refine ⟨by simp [hs, Function.comp_def], .inl fun u hu => ?_⟩
    rw [hs] at hu
    obtain ⟨payload, -, rfl⟩ := List.mem_map.mp hu
    rfl
  keep s a t h hok hn := by
    obtain ⟨i, x, p, p', hget, hmove, hset, hopen⟩ := uploads_move hn
    have hi := (List.getElem?_eq_some_iff.mp hget).1
    have hnew : t.uploads[i]? = some ⟨x, p'⟩ := by
      rw [hset]
      exact List.getElem?_set_self hi
    have hother (j : ℕ) (v : Upload) (hj : j ≠ i) (hv : t.uploads[j]? = some v) :
        s.uploads[j]? = some v := by
      rwa [hset, List.getElem?_set_ne (fun he => hj he.symm)] at hv
    refine ⟨?_, .inr ?_⟩
    · have hpayload : (s.uploads.map Upload.payload)[i]? = some x := by simp [hget]
      obtain ⟨l₁, l₂, hsplit, hsame⟩ := set_split hpayload
      rw [hset, List.map_set, hsame x, ← hsplit, h.1]
    · generalize t.file = file' at hmove ⊢
      cases hmove with
      | fopen =>
        obtain rfl := hopen rfl
        exact ⟨i, x, _, hnew, nofun, Nat.zero_le _, rfl,
          fun j v hj hv => hok v (List.mem_of_getElem? (hother j v hj hv))⟩
      | write hpos hroom =>
        obtain ⟨hle, hfile, hothers⟩ := h.2.writing hget
        refine ⟨i, x, _, hnew, nofun, hroom, ?_, fun j v hj hv => hothers j v hj (hother j v hj hv)⟩
        rw [hfile, writeAt_take hle]
        rfl
      | fclose =>
        obtain ⟨hle, hfile, hothers⟩ := h.2.writing hget
        exact ⟨i, x, _, hnew, nofun, Nat.le_refl _, hfile,
          fun j v hj hv => hothers j v hj (hother j v hj hv)⟩

theorem sequential_whole {payloads : List Bytes} {s : Uploads}
    (hr : (handleUpdates payloads).Reaches Alone s) (hdone : s.Finished) (hne : payloads ≠ []) :
    s.file ∈ payloads := by
  obtain ⟨hpayloads, hseq⟩ := (sequential_inductive payloads).holds hr
  rcases hseq with hnone | ⟨i, x, p, hget, -, -, hfile, -⟩
  · obtain ⟨u, hu⟩ := List.exists_mem_of_ne_nil s.uploads fun he => hne (by simp [← hpayloads, he])
    have hphase := (hnone u hu).symm.trans (hdone u hu)
    contradiction
  · have hmem := List.mem_of_getElem? hget
    obtain rfl : p = .closed := hdone _ hmem
    have hall : s.file = x := hfile.trans (List.take_length ..)
    rw [hall, ← hpayloads]
    exact List.mem_map_of_mem hmem

/-- The payloads of two uploads cannot be mixed exactly when they differ in one
byte at most, or one is the other with zeros and a last byte; and uploads that
come one after the other are not mixed, whatever they are. -/
theorem upload_kept_iff (x y : Bytes) :
    (OneUploadKept x y ↔ Mergeable x y) ∧
    ∀ s, (handleUpdates [x, y]).Reaches Alone s → s.Finished → s.file = x ∨ s.file = y := by
  refine ⟨⟨fun h => ?_, fun hm s hr hdone => ?_⟩, fun s hr hdone => ?_⟩
  · rcases Nat.le_total x.length y.length with hle | hle
    · exact h.mergeable_of_le hle
    · exact (h.symm.mergeable_of_le hle).symm
  · obtain ⟨p, q, huploads, hmixed⟩ := (pair_inductive x y).holds hr
    have hclosed (u : Upload) (hu : u ∈ [Upload.mk x p, ⟨y, q⟩]) : u.phase = .closed :=
      hdone u (huploads ▸ hu)
    obtain rfl : p = .closed := hclosed ⟨x, p⟩ (by simp)
    obtain rfl : q = .closed := hclosed ⟨y, q⟩ (by simp)
    generalize s.file = file at hmixed ⊢
    cases hmixed with
    | above _ _ _ hpatch => exact hpatch.whole hm
    | below _ _ _ hpatch => exact (hpatch.whole hm.symm).symm
  · simpa using sequential_whole hr hdone (by simp)

theorem oneByte_kept : OneUploadKept [97] [98] ∧ ∃ s,
    (handleUpdates [[97, 97], [98]]).Reaches Alone s ∧ s.Finished ∧
    (s.file = [97, 97] ∨ s.file = [98]) := by
  have hm : Mergeable [97] [98] := by
    refine .inl ⟨rfl, fun i j hij _ => ?_⟩
    rw [List.getElem?_eq_none (by simp; omega), List.getElem?_eq_none (by simp; omega)]
  have hrun : ((handleUpdates [[97, 97], [98]]).guarded Alone).run
      ⟨[], [⟨[97, 97], .waiting⟩, ⟨[98], .waiting⟩]⟩
      [.fopen 0, .write 0 1, .write 0 1, .fclose 0, .fopen 1, .write 1 1, .fclose 1]
      = some ⟨[98], [⟨[97, 97], .closed⟩, ⟨[98], .closed⟩]⟩ := by decide
  have hr := Machine.Reaches.run (.start rfl) _ hrun
  have hdone : Uploads.Finished ⟨[98], [⟨[97, 97], .closed⟩, ⟨[98], .closed⟩]⟩ := by
    simp [Uploads.Finished]
  exact ⟨(upload_kept_iff [97] [98]).1.mpr hm, _, hr, hdone,
    (upload_kept_iff [97, 97] [98]).2 _ hr hdone⟩

/-- The second opens after the first and writes its byte last. -/
theorem uploads_mixed : ¬ ∀ x y, OneUploadKept x y := by
  intro h
  have hrun : ((handleUpdates [[97, 97], [98]]).run ⟨[], [⟨[97, 97], .waiting⟩, ⟨[98], .waiting⟩]⟩
      [.fopen 0, .fopen 1, .write 0 2, .write 1 1, .fclose 0, .fclose 1])
      = some ⟨[98, 97], [⟨[97, 97], .closed⟩, ⟨[98], .closed⟩]⟩ := by decide
  have hr := Machine.Reachable.run (.start rfl) _ hrun
  have hfile := h [97, 97] [98] _ hr (by simp [Uploads.Finished])
  exact absurd hfile (by decide)

end AdvancedCProjects.Bibak
